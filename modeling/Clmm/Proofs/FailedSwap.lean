import Clmm.Proofs.Reachable
import Clmm.Proofs.SwapBalance

/-!
# Clmm.Proofs.FailedSwap

**What a swap that fails leaves behind** (`failed_swap_leaves_its_walk`). Almost everything that can fail
in a swap comes before its first write, and then the book is as it was. But writing a finished walk ends
with four additions to the pool's counters, and each may be refused after the ticks, the price and the
liquidity were written. Such a swap fails and leaves all of its walk behind (`swap_eq_error`).

So a failing swap leaves a trace exactly if its walk was finished and settled and the counters have no
room for it (`leaves_trace_iff`): a settled swap handed something out, and no step hands anything out
without moving the price (`quote_moves`). The counters of a pool under high rates fill up within four
swaps (`full_swap`).
-/

namespace Clmm

/-! ### Adding to the counters -/

namespace Pool

variable {d : Direction} {s : SwapResult} {p p' : Pool} {e : Failure}

/-- The counters have room for what a swap adds to them. -/
structure HasRoom (p : Pool) (d : Direction) (s : SwapResult) : Prop where
  protocolFee : p.protocolFees.get d.input + s.protocolFee < 2 ^ 64
  fundFee : p.fundFees.get d.input + s.fundFee < 2 ^ 64
  volumeIn : p.volumeIn.get d.input + s.amountIn < 2 ^ 128
  volumeOut : p.volumeOut.get d.output + s.amountOut < 2 ^ 128

/-- The pool with a swap's fees added. -/
def withFees (d : Direction) (s : SwapResult) (p : Pool) : Pool :=
  { p with
    protocolFees := p.protocolFees.set d.input (p.protocolFees.get d.input + s.protocolFee)
    fundFees := p.fundFees.set d.input (p.fundFees.get d.input + s.fundFee) }

/-- What is left of the pool if a swap's additions end at a counter without room: what was added before
stays. -/
inductive FillsUp (p : Pool) (d : Direction) (s : SwapResult) : Pool → Prop
  | protocolFee (hfull : 2 ^ 64 ≤ p.protocolFees.get d.input + s.protocolFee) : FillsUp p d s p
  | fundFee (hroom : p.protocolFees.get d.input + s.protocolFee < 2 ^ 64)
      (hfull : 2 ^ 64 ≤ p.fundFees.get d.input + s.fundFee) :
      FillsUp p d s { p with
        protocolFees := p.protocolFees.set d.input (p.protocolFees.get d.input + s.protocolFee) }
  | volumeIn (hprotocol : p.protocolFees.get d.input + s.protocolFee < 2 ^ 64)
      (hfund : p.fundFees.get d.input + s.fundFee < 2 ^ 64)
      (hfull : 2 ^ 128 ≤ p.volumeIn.get d.input + s.amountIn) : FillsUp p d s (p.withFees d s)
  | volumeOut (hprotocol : p.protocolFees.get d.input + s.protocolFee < 2 ^ 64)
      (hfund : p.fundFees.get d.input + s.fundFee < 2 ^ 64)
      (hin : p.volumeIn.get d.input + s.amountIn < 2 ^ 128)
      (hfull : 2 ^ 128 ≤ p.volumeOut.get d.output + s.amountOut) :
      FillsUp p d s { p.withFees d s with
        volumeIn := p.volumeIn.set d.input (p.volumeIn.get d.input + s.amountIn) }

/-- The counters fill up exactly if they have no room for all of a swap. -/
theorem exists_fillsUp_iff : (∃ p', FillsUp p d s p') ↔ ¬ p.HasRoom d s := by
  constructor
  · rintro ⟨p', hfills⟩ hroom
    cases hfills with
    | protocolFee hfull => exact Nat.not_le.2 hroom.protocolFee hfull
    | fundFee _ hfull => exact Nat.not_le.2 hroom.fundFee hfull
    | volumeIn _ _ hfull => exact Nat.not_le.2 hroom.volumeIn hfull
    | volumeOut _ _ _ hfull => exact Nat.not_le.2 hroom.volumeOut hfull
  · intro hroom
    by_cases hprotocol : p.protocolFees.get d.input + s.protocolFee < 2 ^ 64
    · by_cases hfund : p.fundFees.get d.input + s.fundFee < 2 ^ 64
      · by_cases hin : p.volumeIn.get d.input + s.amountIn < 2 ^ 128
        · have hfull : 2 ^ 128 ≤ p.volumeOut.get d.output + s.amountOut := by
            by_contra hout
            exact hroom ⟨hprotocol, hfund, hin, Nat.not_le.1 hout⟩
          exact ⟨_, .volumeOut hprotocol hfund hin hfull⟩
        · exact ⟨_, .volumeIn hprotocol hfund (Nat.not_lt.1 hin)⟩
      · exact ⟨_, .fundFee hprotocol (Nat.not_lt.1 hfund)⟩
    · exact ⟨_, .protocolFee (Nat.not_lt.1 hprotocol)⟩

theorem accrueFees_eq_error {protocol fund : Nat} :
    accrueFees d protocol fund p = .error e p' ↔
      2 ^ 64 ≤ p.protocolFees.get d.input + protocol ∧ e = .refused .mathOverflow ∧ p' = p ∨
        p.protocolFees.get d.input + protocol < 2 ^ 64 ∧
          2 ^ 64 ≤ p.fundFees.get d.input + fund ∧ e = .refused .mathOverflow ∧
          p' = { p with
            protocolFees := p.protocolFees.set d.input (p.protocolFees.get d.input + protocol) } := by
  simp only [accrueFees]
  simp only [Update.bind_eq_error, Update.get_eq_error, Update.get_eq_ok, Update.lift_eq_error,
    Update.lift_eq_ok, Update.modify_eq_error, Update.modify_eq_ok, narrow_eq_error, narrow_eq_ok]
  simp only [false_or, or_false, and_false, exists_false, exists_eq_left, exists_and_left, and_assoc,
    exists_eq_left', exists_const]

theorem recordVolume_eq_error {amountIn amountOut : Nat} :
    recordVolume d amountIn amountOut p = .error e p' ↔
      2 ^ 128 ≤ p.volumeIn.get d.input + amountIn ∧ e = .refused .mathOverflow ∧ p' = p ∨
        p.volumeIn.get d.input + amountIn < 2 ^ 128 ∧
          2 ^ 128 ≤ p.volumeOut.get d.output + amountOut ∧ e = .refused .mathOverflow ∧
          p' = { p with
            volumeIn := p.volumeIn.set d.input (p.volumeIn.get d.input + amountIn) } := by
  simp only [recordVolume]
  simp only [Update.bind_eq_error, Update.get_eq_error, Update.get_eq_ok, Update.lift_eq_error,
    Update.lift_eq_ok, Update.modify_eq_error, Update.modify_eq_ok, narrow_eq_error, narrow_eq_ok]
  simp only [false_or, or_false, and_false, exists_false, exists_eq_left, exists_and_left, and_assoc,
    exists_eq_left', exists_const]

end Pool

namespace Swap

variable {config : FeeConfig} {extension : Option BitmapExtension} {r : SwapRequest} {time : Nat}
  {b b' : SwapBook} {d : Direction} {w : Walk} {s : SwapResult} {e : Failure}

theorem onPool_eq_error {α : Type} {u : Update Pool α} :
    onPool u b = .error e b' ↔ ∃ p, u b.pool = .error e p ∧ b' = { b with pool := p } := by
  simp only [onPool]
  cases u b.pool with
  | ok a p => simp
  | error e' p =>
      constructor
      · intro h
        obtain ⟨rfl, rfl⟩ := EStateM.Result.error.inj h
        exact ⟨p, rfl, rfl⟩
      · intro h
        obtain ⟨_, hp, rfl⟩ := h
        obtain ⟨rfl, rfl⟩ := EStateM.Result.error.inj hp
        rfl

/-- The book with a finished walk written into it, before anything is added to the counters. -/
def written (d : Direction) (w : Walk) (b : SwapBook) : SwapBook where
  arrays := writeCrossings b.arrays w.crossings
  pool := { b.pool with
    sqrtPrice := w.sqrtPrice, tick := w.tick, liquidity := w.liquidity,
    growth := b.pool.growth.set d.input w.growth }

/-- Writing a finished walk fails exactly if the counters fill up, and leaves the walk written. -/
theorem commit_eq_error : commit d w s b = .error e b' ↔ e = .refused .mathOverflow ∧
    ∃ p, (written d w b).pool.FillsUp d s p ∧ b' = { written d w b with pool := p } := by
  simp only [commit, Update.bind_eq_error, Update.modify_eq_error, Update.modify_eq_ok,
    onPool_eq_error, onPool_eq_ok]
  constructor
  · intro h
    obtain ⟨_, t, ht, h⟩ := h.resolve_left id
    obtain rfl : t = written d w b := ht
    rcases h with ⟨p, hfees, rfl⟩ | ⟨_, _, ⟨p, hfees, rfl⟩, p', hvolume, rfl⟩
    · rcases Pool.accrueFees_eq_error.1 hfees with ⟨hfull, rfl, rfl⟩ | ⟨hroom, hfull, rfl, rfl⟩
      · exact ⟨rfl, _, .protocolFee hfull, rfl⟩
      · exact ⟨rfl, _, .fundFee hroom hfull, rfl⟩
    · obtain ⟨⟨hprotocol, hfund⟩, rfl⟩ := accrueFees_eq_ok.1 hfees
      rcases Pool.recordVolume_eq_error.1 hvolume with ⟨hfull, rfl, rfl⟩ | ⟨hin, hfull, rfl, rfl⟩
      · exact ⟨rfl, _, .volumeIn hprotocol hfund hfull, rfl⟩
      · exact ⟨rfl, _, .volumeOut hprotocol hfund hin hfull, rfl⟩
  · intro h
    obtain ⟨rfl, p, hfills, rfl⟩ := h
    refine Or.inr ⟨(), written d w b, rfl, ?_⟩
    cases hfills with
    | protocolFee hfull =>
        exact Or.inl ⟨_, Pool.accrueFees_eq_error.2 (Or.inl ⟨hfull, rfl, rfl⟩), rfl⟩
    | fundFee hroom hfull =>
        exact Or.inl ⟨_, Pool.accrueFees_eq_error.2 (Or.inr ⟨hroom, hfull, rfl, rfl⟩), rfl⟩
    | volumeIn hprotocol hfund hfull =>
        exact Or.inr ⟨(), _, ⟨_, accrueFees_eq_ok.2 ⟨⟨hprotocol, hfund⟩, rfl⟩, rfl⟩, _,
          Pool.recordVolume_eq_error.2 (Or.inl ⟨hfull, rfl, rfl⟩), rfl⟩
    | volumeOut hprotocol hfund hin hfull =>
        exact Or.inr ⟨(), _, ⟨_, accrueFees_eq_ok.2 ⟨⟨hprotocol, hfund⟩, rfl⟩, rfl⟩, _,
          Pool.recordVolume_eq_error.2 (Or.inr ⟨hin, hfull, rfl, rfl⟩), rfl⟩

/-- **What a failing swap leaves.** Either it failed before its first write, and the book is as it was.
Or its walk was finished and settled, a counter of the pool had no room, and the book has the walk
written into it, with the counters as far as they came. -/
theorem swap_eq_error :
    Clmm.swap config extension r time b = .error e b' ↔
      quote config b extension r time = .error e ∧ b' = b ∨
        e = .refused .mathOverflow ∧ ∃ w s p, quote config b extension r time = .ok (w, s) ∧
          (written r.direction w b).pool.FillsUp r.direction s p ∧
          b' = { written r.direction w b with pool := p } := by
  simp only [Clmm.swap, Update.bind_eq_error, Update.get_eq_error, Update.get_eq_ok,
    Update.lift_eq_error, Update.lift_eq_ok, Update.pure_eq_error, commit_eq_error]
  constructor
  · rintro (hfalse | ⟨_, _, ⟨rfl, rfl⟩, hquote | ⟨⟨w, s⟩, _, ⟨hquote, rfl⟩, hcommit | hnever⟩⟩)
    · exact hfalse.elim
    · exact Or.inl hquote
    · obtain ⟨rfl, p, hfills, rfl⟩ := hcommit
      exact Or.inr ⟨rfl, w, s, p, hquote, hfills, rfl⟩
    · obtain ⟨_, _, -, hfalse⟩ := hnever
      exact hfalse.elim
  · intro h
    refine Or.inr ⟨b, b, ⟨rfl, rfl⟩, ?_⟩
    rcases h with hquote | ⟨rfl, w, s, p, hquote, hfills, rfl⟩
    · exact Or.inl hquote
    · exact Or.inr ⟨(w, s), b, ⟨hquote, rfl⟩, Or.inl ⟨rfl, p, hfills, rfl⟩⟩

/-- The walk that is written does not touch the counters, so they fill up if they have no room. -/
theorem hasRoom_written : (written d w b).pool.HasRoom d s ↔ b.pool.HasRoom d s :=
  ⟨fun ⟨hprotocol, hfund, hin, hout⟩ => ⟨hprotocol, hfund, hin, hout⟩,
    fun ⟨hprotocol, hfund, hin, hout⟩ => ⟨hprotocol, hfund, hin, hout⟩⟩

/-- A swap whose counters have room leaves no trace if it fails. -/
theorem eq_of_hasRoom (h : Clmm.swap config extension r time b = .error e b')
    (hroom : ∀ w s, quote config b extension r time = .ok (w, s) → b.pool.HasRoom r.direction s) :
    b' = b := by
  rcases swap_eq_error.1 h with ⟨-, hsame⟩ | ⟨-, w, s, p, hquote, hfills, -⟩
  · exact hsame
  · exact absurd (hasRoom_written.2 (hroom w s hquote)) (Pool.exists_fillsUp_iff.1 ⟨p, hfills⟩)

/-! ### A settled swap moves the price -/

section Moving

variable {c : Course} {w' moved : Walk} {t : Int} {step' : SwapStep} {split : FeeSplit}
  {growth : Growth} {found : Option (Cursor × Nat)}

/-- A step that leaves the price where it is hands nothing out. -/
theorem step_paidOut_le (hlimit : minSqrtPrice < c.limit) (hw : Underway c w)
    (h : step c w = .ok w') (hsame : w'.sqrtPrice = w.sqrtPrice) (amount : Nat) :
    w'.paidOut c amount ≤ w.paidOut c amount := by
  obtain ⟨found, t, s, split, growth, moved, hl, hend⟩ := step_cases h
  obtain ⟨hprice, hremaining, hcalculated⟩ := hend.booked
  have hsqrt : moved.sqrtPrice = s.sqrtPrice := hl.settled.sqrtPrice_eq
  have hgives := (hl.sound hlimit hw).gives
  rw [← hsqrt, ← hprice, hsame, sub_self, mul_zero] at hgives
  have hpaid : w'.paidOut c amount = w.paidOut c amount + s.amountOut := by
    rw [← (hl.paid amount).2]
    simp only [Walk.paidOut]
    rw [hremaining, hcalculated]
  linarith

/-- A walk that ends at the price it began at has handed nothing out. -/
theorem walk_paidOut_le (hlimit : minSqrtPrice < c.limit) (hw : Underway c w) {n : Nat}
    (h : walk c n w = .ok w') (hsame : w'.sqrtPrice = w.sqrtPrice) (amount : Nat) :
    w'.paidOut c amount ≤ w.paidOut c amount := by
  -- as long as the price has not moved, nothing was handed out
  refine (walk_induct (I := fun v => (Underway c v ∧ c.direction.Leads w.sqrtPrice v.sqrtPrice) ∧
    (v.sqrtPrice = w.sqrtPrice → v.paidOut c amount ≤ w.paidOut c amount))
    (fun {v v'} hv hstep => ?_) ⟨⟨hw, Direction.Leads.refl _ _⟩, fun _ => le_rfl⟩ h).2 hsame
  obtain ⟨⟨hunderway, hleads⟩, hstill⟩ := hv
  obtain ⟨hunderway', hleads'⟩ := step_underway hlimit hunderway hstep
  refine ⟨⟨hunderway', hleads.trans hleads'⟩, fun hback => ?_⟩
  have hprice : v.sqrtPrice = w.sqrtPrice := (hback ▸ hleads').antisymm hleads
  exact (step_paidOut_le hlimit hunderway hstep (hback.trans hprice.symm) amount).trans
    (hstill hprice)

end Moving

/-- A settled swap has handed something out. -/
theorem amountOut_pos_of_settle (h : settle r w = .ok s) : 0 < s.amountOut := by
  simp only [settle] at h
  rw [Outcome.bind_eq_ok] at h
  obtain ⟨settled, -, h⟩ := h
  cases hmode : r.mode with
  | exactIn =>
      simp only [hmode, Outcome.bind_eq_ok, require_eq_ok] at h
      obtain ⟨_, hpos, _, -, h⟩ := h
      obtain rfl := Except.ok.inj h
      exact hpos.2
  | exactOut =>
      simp only [hmode, Outcome.bind_eq_ok, require_eq_ok] at h
      obtain ⟨_, hpos, _, -, h⟩ := h
      obtain rfl := Except.ok.inj h
      exact hpos.2

/-- **A settled swap has moved the price.** -/
theorem quote_moves (hprice : Agrees b.pool.sqrtPrice b.pool.tick) (hamount : r.amount < 2 ^ 64)
    (h : quote config b extension r time = .ok (w, s)) : w.sqrtPrice ≠ b.pool.sqrtPrice := by
  obtain ⟨c, cursor, -, hlimit, hc, -, hwalk, hsettle⟩ := quote_eq_ok h
  have hlow := lt_effectiveLimit hprice hlimit
  obtain ⟨hahead, -⟩ := checkLimit_eq_ok hlimit
  obtain ⟨edges, -, rfl⟩ := course_eq_ok hc
  intro hsame
  have hout := walk_paidOut_le hlow ⟨hprice, hahead, hamount⟩ hwalk hsame r.amount
  rw [((settle_eq_ok hsettle).paid rfl).2, (paid_start b.pool r cursor _).2] at hout
  have hpos := amountOut_pos_of_settle hsettle
  exact Nat.not_le.2 hpos (by exact_mod_cast hout)

/-- **When a failing swap leaves a trace**: exactly if its walk was finished and settled, and the counters
have no room for it. -/
theorem leaves_trace_iff (hprice : Agrees b.pool.sqrtPrice b.pool.tick) (hamount : r.amount < 2 ^ 64)
    (h : Clmm.swap config extension r time b = .error e b') :
    b' ≠ b ↔ ∃ w s, quote config b extension r time = .ok (w, s) ∧
      ¬ b.pool.HasRoom r.direction s := by
  constructor
  · intro htrace
    by_contra hroom
    exact htrace (eq_of_hasRoom h fun w s hquote =>
      by_contra fun hfull => hroom ⟨w, s, hquote, hfull⟩)
  · rintro ⟨w', s', hquote', -⟩ hsame
    rcases swap_eq_error.1 h with ⟨hfailed, -⟩ | ⟨-, w, s, p, hquote, hfills, rfl⟩
    · rw [hfailed] at hquote'
      cases hquote'
    · -- no counter is the price, which the walk has moved
      have hsqrt : p.sqrtPrice = w.sqrtPrice := by
        cases hfills with
        | protocolFee => rfl
        | fundFee => rfl
        | volumeIn => rfl
        | volumeOut => rfl
      exact quote_moves hprice hamount hquote (hsqrt.symm.trans (congrArg (·.pool.sqrtPrice) hsame))

/-- **What a failing swap leaves**, for any book, and when that is not what it found. -/
theorem failed_swap_leaves_its_walk (config : FeeConfig) (extension : Option BitmapExtension)
    (r : SwapRequest) (time : Nat) (b b' : SwapBook) (e : Failure) :
    (Clmm.swap config extension r time b = .error e b' ↔
      quote config b extension r time = .error e ∧ b' = b ∨
        e = .refused .mathOverflow ∧ ∃ w s p, quote config b extension r time = .ok (w, s) ∧
          (written r.direction w b).pool.FillsUp r.direction s p ∧
          b' = { written r.direction w b with pool := p }) ∧
    (Agrees b.pool.sqrtPrice b.pool.tick → r.amount < 2 ^ 64 →
      Clmm.swap config extension r time b = .error e b' →
      (b' ≠ b ↔ ∃ w s, quote config b extension r time = .ok (w, s) ∧
        ¬ b.pool.HasRoom r.direction s)) :=
  ⟨swap_eq_error, fun hprice hamount h => leaves_trace_iff hprice hamount h⟩

end Swap

/-! ### Counters that fill up -/

namespace Market

/-- As much of token 0 as an amount can hold. -/
def fullRequest : SwapRequest := ⟨2 ^ 64 - 1, 0, 0, .exactIn, .down⟩

/-- What `fullRequest` is supplied with. -/
def fullSupply : Supply := ⟨[-20400, -444000], true⟩

/-- Three swaps in a pool that takes half of every amount as fee, and half of the fee for the protocol.
A wide position carries them; a narrow one lies below where they end. -/
def fullRun : List Operation :=
  [.setUpArray (-444000) 0, .setUpArray (-20400) 0, .setUpArray 443400 0,
   .openPosition (-443630) 443630 ⟨2 ^ 64, ⟨2 ^ 64 - 1, 2 ^ 64 - 1⟩, none⟩ false
     ⟨[-444000, 443400], true⟩,
   .openPosition (-20400) (-19900) ⟨1000000, ⟨2 ^ 64 - 1, 2 ^ 64 - 1⟩, none⟩ false ⟨[-20400], false⟩,
   .swap fullRequest 0 fullSupply, .swap fullRequest 0 fullSupply, .swap fullRequest 0 fullSupply]

/-- The fourth swap fails on the protocol's fees, after it crossed both ticks of the narrow position and
took the price with it. -/
theorem full_swap : ∃ m total b',
    sampleUnder ⟨10, 500000, 500000, 0⟩ 0 fullRun = .ok (m, total) ∧
    Clmm.swap m.config (m.supplied fullSupply) fullRequest 0 ⟨m.pool, m.pick fullSupply.starts⟩ =
      .error (.refused .mathOverflow) b' ∧
    m.pool.tick = -18327 ∧ b'.pool.tick = -21974 ∧
    b'.pool.protocolFees = m.pool.protocolFees ∧ b'.arrays ≠ m.pick fullSupply.starts := by
  obtain ⟨m, total, hsample, hrun⟩ := exists_of_any (P := fun x =>
      failsWith (fun e (b' : SwapBook) => decide (e = .refused .mathOverflow ∧
          x.1.pool.tick = -18327 ∧ b'.pool.tick = -21974 ∧
          b'.pool.protocolFees = x.1.pool.protocolFees ∧ b'.arrays ≠ x.1.pick fullSupply.starts))
        (Clmm.swap x.1.config (x.1.supplied fullSupply) fullRequest 0
          ⟨x.1.pool, x.1.pick fullSupply.starts⟩))
    (show (sampleUnder ⟨10, 500000, 500000, 0⟩ 0 fullRun).toOption.any _ = true by decide +kernel)
  obtain ⟨e, b', hswap, hleft⟩ := exists_of_failsWith hrun
  obtain ⟨rfl, htick, htick', hfees, harrays⟩ := of_decide_eq_true hleft
  exact ⟨m, total, b', hsample, hswap, htick, htick', hfees, harrays⟩

theorem failed_swap_leaves_its_walk_full : ∃ m total b' w result,
    sampleUnder ⟨10, 500000, 500000, 0⟩ 0 fullRun = .ok (m, total) ∧
    Clmm.swap m.config (m.supplied fullSupply) fullRequest 0 ⟨m.pool, m.pick fullSupply.starts⟩ =
      .error (.refused .mathOverflow) b' ∧
    Swap.quote m.config ⟨m.pool, m.pick fullSupply.starts⟩ (m.supplied fullSupply) fullRequest 0 =
      .ok (w, result) ∧
    b'.arrays = Swap.writeCrossings (m.pick fullSupply.starts) w.crossings ∧
    ¬ m.pool.HasRoom .down result := by
  obtain ⟨m, total, b', hsample, hswap, -, -, -, harrays⟩ := full_swap
  obtain ⟨hleft, htrace⟩ := Swap.failed_swap_leaves_its_walk m.config (m.supplied fullSupply)
    fullRequest 0 ⟨m.pool, m.pick fullSupply.starts⟩ b' (.refused .mathOverflow)
  have hprice := (reached_of_sampleUnder hsample).wellFormed.price
  obtain ⟨w, result, hquote, hroom⟩ := (htrace hprice (by decide) hswap).1
    fun hsame => harrays (congrArg (·.arrays) hsame)
  rcases hleft.1 hswap with ⟨hfailed, -⟩ | ⟨-, w', result', p, hquote', -, rfl⟩
  · rw [hfailed] at hquote
    cases hquote
  · rw [hquote'] at hquote
    obtain ⟨rfl, rfl⟩ := Prod.mk.inj (Except.ok.inj hquote)
    exact ⟨m, total, _, w', result', hsample, hswap, hquote', rfl, hroom⟩

/-- Not every swap that fails leaves its book as it was, not even in a market that a run leads to. -/
theorem not_every_failed_swap_is_undone : ¬ ∀ (m : Market) (total : Payment), Reached m total →
    ∀ (r : SwapRequest) (time : Nat) (s : Supply) (e : Failure) (b' : SwapBook),
      r.amount < 2 ^ 64 →
      Clmm.swap m.config (m.supplied s) r time ⟨m.pool, m.pick s.starts⟩ = .error e b' →
      b' = ⟨m.pool, m.pick s.starts⟩ := by
  intro hall
  obtain ⟨m, total, b', hsample, hswap, -, -, -, harrays⟩ := full_swap
  have hreached := reached_of_sampleUnder hsample
  have hsame := hall m total hreached fullRequest 0 fullSupply _ b' (by decide) hswap
  exact harrays (congrArg (·.arrays) hsame)

end Market

end Clmm
