import Clmm.Proofs.PriceRange
import Clmm.Proofs.StepContract
import Clmm.Proofs.WalkEnds

/-!
# Clmm.Proofs.LargerSwap

**A larger swap goes further** (`larger_swap_goes_further`). Of two swaps that differ in their amounts
only, the one with the larger amount takes in and hands out at least as much and ends at least as far in
its direction.

The two walks go abreast as long as every step is covered by both amounts: they stand at the same place,
and only what they have left differs (`Walk.withLeft`). The first step that the smaller amount does not
cover uses it up (`SwapStep.eq_or_exhausts_and_exceeds`); the larger one goes at least as far in that step,
whether it reaches the target, with a fee of its own, or stops later. From there on it only adds.
-/

namespace Clmm

/-! ### Steps of two amounts -/

namespace SwapStep

variable {d : Direction} {mode : SwapMode} {current target liquidity remaining more rate : Nat}
  {s s' : SwapStep}

/-- What a step adds up of the other amount. -/
def gained (s : SwapStep) : SwapMode → Nat
  | .exactIn => s.amountOut
  | .exactOut => s.amountIn + s.fee

/-- The step `s'` takes, gives and moves the price at least as much as `s`. -/
structure Exceeds (mode : SwapMode) (d : Direction) (s s' : SwapStep) : Prop where
  taken : s.taken mode ≤ s'.taken mode
  gained : s.gained mode ≤ s'.gained mode
  leads : d.Leads s.sqrtPrice s'.sqrtPrice

theorem Sound.sqrtPrice_pos (h : Sound s d current target liquidity) (hcurrent : 0 < current)
    (htarget : 0 < target) : 0 < s.sqrtPrice := by
  cases d with
  | down => exact Nat.lt_of_lt_of_le htarget h.stays
  | up => exact Nat.lt_of_lt_of_le hcurrent h.leads

/-- Two steps to one price that exchange one amount at one fee are the same. -/
theorem eq_of_fields (hprice : s'.sqrtPrice = s.sqrtPrice) (hin : s'.amountIn = s.amountIn)
    (hout : s'.amountOut = s.amountOut) (hfee : s'.fee = s.fee) : s' = s := by
  cases s
  cases s'
  cases hprice
  cases hin
  cases hout
  cases hfee
  rfl

/-- **With a fixed input, a step with more left is the same or goes further**, and in the second case the
one with less left uses it up. -/
theorem eq_or_exceeds_exactIn (hcurrent : 0 < current) (htarget : 0 < target)
    (hleads : d.Leads current target) (hle : remaining ≤ more) (hmore : more < 2 ^ 64)
    (h : compute current target liquidity remaining rate .exactIn d = .ok s)
    (h' : compute current target liquidity more rate .exactIn d = .ok s') :
    s' = s ∨ s.taken .exactIn = remaining ∧ s.Exceeds .exactIn d s' := by
  have hs := sound_compute hcurrent htarget hleads (hle.trans_lt hmore) h
  have hpos := hs.sqrtPrice_pos hcurrent htarget
  obtain ⟨hrate, hin, hout, full, hfull, hspends⟩ := spends_compute h
  obtain ⟨-, hin', hout', full', hfull', hspends'⟩ := spends_compute h'
  obtain rfl : full = full' := Except.ok.inj (hfull.symm.trans hfull')
  have hbudget := budget_mono rate hle
  cases hspends with
  | arrives hcovers hprice hfee =>
      cases hspends' with
      | arrives _ hprice' hfee' =>
          left
          rw [hprice] at hin hout
          rw [hprice'] at hin' hout'
          have heq : s'.amountIn = s.amountIn := Except.ok.inj (hin'.symm.trans hin)
          refine eq_of_fields (hprice'.trans hprice.symm) heq
            (Except.ok.inj (hout'.symm.trans hout)) ?_
          rw [hfee, hfee', heq]
      | stops hshort' => exact absurd (hcovers.trans hbudget) (Nat.not_le.2 (hshort' hmore))
  | stops hshort hnext hused =>
      have hcost := (nextPriceByInput_spec hcurrent hnext).2.2
      have hfurther : d.Leads s.sqrtPrice s'.sqrtPrice :=
        passes_compute hcurrent h' hpos hs.stays (hcost.trans (by exact_mod_cast hbudget))
      refine Or.inr ⟨hused, ?_, ?_, hfurther⟩
      · change s.amountIn + s.fee ≤ s'.amountIn + s'.fee
        rw [hused]
        cases hspends' with
        | arrives _ hprice' hfee' =>
            -- the whole way costs more than the smaller budget, so with its fee more than all of it
            rw [hprice', hfull] at hin'
            obtain rfl := Except.ok.inj hin'
            by_contra hless
            rw [hfee'] at hless
            have := (add_divUp_le_iff hrate).1 (Nat.le_of_lt (Nat.not_le.1 hless))
            have := hshort (hle.trans_lt hmore)
            omega
        | stops _ _ hused' => exact hle.trans hused'.ge
      · change s.amountOut ≤ s'.amountOut
        rw [le_amountOut_iff (hs.leads.trans hfurther) hout']
        have hless := Direction.holding_output_anti hpos hfurther
        refine hs.gives.trans (mul_le_mul_of_nonneg_left ?_ (Nat.cast_nonneg _))
        linarith

theorem divUp_mono {k m n : Nat} (hk : 0 < k) (h : m ≤ n) : divUp m k ≤ divUp n k := by
  rw [divUp_le_iff hk]
  exact h.trans ((divUp_le_iff hk).1 le_rfl)

/-- **With a fixed output, a step with more left is the same or goes further**, and in the second case the
one with less left uses it up. -/
theorem eq_or_exceeds_exactOut (hcurrent : 0 < current) (htarget : 0 < target)
    (hleads : d.Leads current target) (hle : remaining ≤ more) (hmore : more < 2 ^ 64)
    (h : compute current target liquidity remaining rate .exactOut d = .ok s)
    (h' : compute current target liquidity more rate .exactOut d = .ok s') :
    s' = s ∨ s.taken .exactOut = remaining ∧ s.Exceeds .exactOut d s' := by
  have hs := sound_compute hcurrent htarget hleads (hle.trans_lt hmore) h
  have hs' := sound_compute hcurrent htarget hleads hmore h'
  have hpos' := hs'.sqrtPrice_pos hcurrent htarget
  obtain ⟨hrate, hin, hfee, full, hfull, hgives⟩ := gives_compute h
  obtain ⟨-, hin', hfee', full', hfull', hgives'⟩ := gives_compute h'
  obtain rfl : full = full' := Except.ok.inj (hfull.symm.trans hfull')
  cases hgives with
  | arrives hcovers hprice hall =>
      cases hgives' with
      | arrives _ hprice' hall' =>
          left
          rw [hprice] at hin
          rw [hprice'] at hin'
          have heq : s'.amountIn = s.amountIn := Except.ok.inj (hin'.symm.trans hin)
          refine eq_of_fields (hprice'.trans hprice.symm) heq (hall'.trans hall.symm) ?_
          rw [hfee, hfee', heq]
      | stops hshort' => exact absurd (hcovers.trans hle) (Nat.not_le.2 (hshort' hmore))
  | stops hshort hnext hused =>
      have htaken : remaining ≤ s'.amountOut := by
        cases hgives' with
        | arrives _ _ hall' => exact hall' ▸ (hshort (hle.trans_lt hmore)).le
        | stops _ _ hused' => exact hle.trans hused'.ge
      -- no price before that of the smaller amount gives as much
      have hfurther : d.Leads s.sqrtPrice s'.sqrtPrice :=
        (nextPriceByOutput_spec hcurrent hnext).2.2 _ hpos' hs'.leads
          (le_trans (by exact_mod_cast htaken) hs'.gives)
      refine Or.inr ⟨hused, hused.trans_le htaken, ?_, hfurther⟩
      have hpaid : s.amountIn ≤ s'.amountIn := by
        rw [amountIn_le_iff hs.leads hin]
        have hmoves := holding_input_mono hpos' hfurther
        refine le_trans (mul_le_mul_of_nonneg_left ?_ (Nat.cast_nonneg _)) hs'.pays
        linarith
      change s.amountIn + s.fee ≤ s'.amountIn + s'.fee
      rw [hfee, hfee']
      exact Nat.add_le_add hpaid (divUp_mono (by omega) (Nat.mul_le_mul_right _ hpaid))

/-- **A step with more left is the same or goes further.** -/
theorem eq_or_exceeds (hcurrent : 0 < current) (htarget : 0 < target)
    (hleads : d.Leads current target) (hle : remaining ≤ more) (hmore : more < 2 ^ 64)
    (h : compute current target liquidity remaining rate mode d = .ok s)
    (h' : compute current target liquidity more rate mode d = .ok s') :
    s' = s ∨ s.taken mode = remaining ∧ s.Exceeds mode d s' := by
  cases mode with
  | exactIn => exact eq_or_exceeds_exactIn hcurrent htarget hleads hle hmore h h'
  | exactOut => exact eq_or_exceeds_exactOut hcurrent htarget hleads hle hmore h h'

end SwapStep

namespace Swap

variable {c : Course} {w w' v v' moved moved' : Walk} {t : Int} {s s' : SwapStep}
  {split split' : FeeSplit} {growth growth' : Growth} {found : Option (Cursor × Nat)}
  {left n : Nat}

/-! ### Steps of walks -/

/-- The walk with another amount left. -/
def Walk.withLeft (w : Walk) (left : Nat) : Walk := { w with remaining := left }

/-- Booking a step takes from what is left and adds to what was got. -/
theorem Settled.books (h : Settled c w s split growth moved) :
    moved.remaining + s.taken c.mode = w.remaining ∧
      moved.calculated = w.calculated + s.gained c.mode := by
  have hamounts := h.amounts
  cases hmode : c.mode with
  | exactIn =>
      rw [hmode] at hamounts
      exact hamounts
  | exactOut =>
      rw [hmode] at hamounts
      exact hamounts

/-- What a walk has when it goes on from `w`: no more left, no less got, and a price no less far. -/
structure Onward (c : Course) (w w' : Walk) : Prop where
  remaining : w'.remaining ≤ w.remaining
  calculated : w.calculated ≤ w'.calculated
  leads : c.direction.Leads w.sqrtPrice w'.sqrtPrice

theorem Onward.refl (w : Walk) : Onward c w w :=
  ⟨Nat.le_refl _, Nat.le_refl _, .refl _ _⟩

theorem Onward.trans (h : Onward c w w') (h' : Onward c w' v) : Onward c w v :=
  ⟨h'.remaining.trans h.remaining, h.calculated.trans h'.calculated, h.leads.trans h'.leads⟩

theorem onward_of_step (hlimit : minSqrtPrice < c.limit) (hw : Underway c w)
    (h : step c w = .ok w') : Onward c w w' := by
  obtain ⟨-, hleads⟩ := step_underway hlimit hw h
  obtain ⟨found, t, s, split, growth, moved, hl, hend⟩ := step_cases h
  obtain ⟨-, hremaining, hcalculated⟩ := hend.booked
  obtain ⟨htaken, hgained⟩ := hl.settled.books
  refine ⟨?_, ?_, hleads⟩
  · rw [hremaining]
    exact hl.settled.remaining_le
  · rw [hcalculated, hgained]
    exact Nat.le_add_right _ _

/-- A walk only goes onward. -/
theorem onward_of_walk (hlimit : minSqrtPrice < c.limit) (hw : Underway c w)
    (h : walk c n w = .ok w') : Onward c w w' := by
  refine (walk_induct (I := fun v => Underway c v ∧ Onward c w v) (fun hv hstep => ?_)
    ⟨hw, .refl w⟩ h).2
  exact ⟨(step_underway hlimit hv.1 hstep).1, hv.2.trans (onward_of_step hlimit hv.1 hstep)⟩

/-! ### Walks abreast -/

/-- Booking one step, walks abreast stay so. -/
theorem Settled.abreast (h : Settled c w s split growth moved)
    (h' : Settled c (w.withLeft left) s split' growth' moved') :
    moved' = moved.withLeft moved'.remaining := by
  obtain rfl : split' = split := Except.ok.inj (h'.split_eq.symm.trans h.split_eq)
  obtain rfl : growth' = growth := Except.ok.inj (h'.growth_eq.symm.trans h.growth_eq)
  have hcalculated : moved'.calculated = moved.calculated :=
    h'.books.2.trans h.books.2.symm
  rw [h'.rest, h.rest, hcalculated]
  rfl

/-- Ending one step, walks abreast stay so. -/
theorem Ending.abreast (h : Ending c w t s moved found w')
    (h' : Ending c (w.withLeft left) t s (moved.withLeft n) found v') : v' = w'.withLeft n := by
  cases h with
  | @crosses k offset arrived hprice hcross =>
      cases h' with
      | @crosses _ _ arrived' _ hcross' =>
          obtain ⟨_, liquidity, hliquidity, rfl⟩ := crossTick_eq_ok hcross
          obtain ⟨_, liquidity', hliquidity', rfl⟩ := crossTick_eq_ok hcross'
          obtain rfl : liquidity' = liquidity := Int.ofNat.inj (hliquidity'.trans hliquidity.symm)
          rfl
      | stops hne => exact absurd hprice hne
      | stays hne => exact absurd hprice hne
  | reachesEdge hprice =>
      cases h' with
      | reachesEdge => rfl
      | stops hne => exact absurd hprice hne
      | stays hne => exact absurd hprice hne
  | stops hne hmoved htick =>
      cases h' with
      | crosses hprice => exact absurd hprice hne
      | reachesEdge hprice => exact absurd hprice hne
      | stops _ _ htick' =>
          obtain rfl := Except.ok.inj (htick'.symm.trans htick)
          rfl
      | stays _ hsame => exact absurd hsame hmoved
  | stays hne hsame =>
      cases h' with
      | crosses hprice => exact absurd hprice hne
      | reachesEdge hprice => exact absurd hprice hne
      | stops _ hmoved => exact absurd hsame hmoved
      | stays => rfl

/-- **A step with more left ends abreast or goes further**, and in the second case nothing is left of the
smaller amount. -/
theorem step_abreast_or_onward (hlimit : minSqrtPrice < c.limit) (hw : Underway c w)
    (hmore : w.remaining + n < 2 ^ 64) (h : step c w = .ok w')
    (h' : step c (w.withLeft (w.remaining + n)) = .ok v') :
    v' = w'.withLeft (w'.remaining + n) ∨
      w'.remaining = 0 ∧ Onward c (w'.withLeft (w'.remaining + n)) v' := by
  obtain ⟨found, t, s, split, growth, moved, hl, hend⟩ := step_cases h
  obtain ⟨found', t', s', split', growth', moved', hl', hend'⟩ := step_cases h'
  -- both head for the same tick
  obtain rfl : found = found' := Except.ok.inj (hl.target_eq.symm.trans hl'.target_eq)
  obtain rfl : t = t' := Except.ok.inj (hl.bound_eq.symm.trans hl'.bound_eq)
  obtain ⟨htaken, hgained⟩ := hl.settled.books
  obtain ⟨htaken', hgained'⟩ := hl'.settled.books
  change moved'.remaining + s'.taken c.mode = w.remaining + n at htaken'
  change moved'.calculated = w.calculated + s'.gained c.mode at hgained'
  change moved.remaining + s.taken c.mode = w.remaining at htaken
  change moved.calculated = w.calculated + s.gained c.mode at hgained
  obtain ⟨hsqrt, hremaining, hcalculated⟩ := hend.booked
  obtain ⟨hsqrt', hremaining', hcalculated'⟩ := hend'.booked
  rcases SwapStep.eq_or_exceeds hw.price.price_pos (nearer_pos hl.low hl.high hlimit)
    (hl.heads.leads_nearer hw) (Nat.le_add_right _ n) hmore hl.computed hl'.computed with
    rfl | ⟨hused, hexceeds⟩
  · left
    have hmoved : moved' = moved.withLeft moved'.remaining := hl.settled.abreast hl'.settled
    rw [hmoved] at hend'
    rw [hend.abreast hend', hremaining]
    congr 1
    omega
  · right
    have hexceeds_taken := hexceeds.taken
    have hexceeds_gained := hexceeds.gained
    refine ⟨by omega, ?_, ?_, ?_⟩
    · change v'.remaining ≤ w'.remaining + n
      omega
    · change w'.calculated ≤ v'.calculated
      omega
    · change c.direction.Leads w'.sqrtPrice v'.sqrtPrice
      rw [hsqrt, hsqrt', hl.settled.sqrtPrice_eq, hl'.settled.sqrtPrice_eq]
      exact hexceeds.leads

/-- **A walk with more left goes at least as far**, takes as much and gets as much. -/
theorem walk_onward (hlimit : minSqrtPrice < c.limit) (hw : Underway c w) {more : Nat}
    (hmore : w.remaining + more < 2 ^ 64) (h : walk c n w = .ok v)
    (h' : walk c n (w.withLeft (w.remaining + more)) = .ok v') :
    Onward c (v.withLeft (v.remaining + more)) v' := by
  -- the walks are followed while they are abreast; from then on only the larger one moves
  induction n generalizing w with
  | zero =>
      cases hdone : isDone c w with
      | false =>
          rw [walk, if_neg (by rw [hdone]; exact Bool.false_ne_true)] at h
          cases h
      | true =>
          rw [walk_of_isDone hdone] at h
          obtain rfl := Except.ok.inj h
          exact onward_of_walk hlimit ⟨hw.price, hw.toward, hmore⟩ h'
  | succ n ih =>
      cases hdone : isDone c w with
      | true =>
          rw [walk_of_isDone hdone] at h
          obtain rfl := Except.ok.inj h
          exact onward_of_walk hlimit ⟨hw.price, hw.toward, hmore⟩ h'
      | false =>
          have hgoes : isDone c (w.withLeft (w.remaining + more)) = false := by
            rw [isDone_eq_false_iff] at hdone ⊢
            exact ⟨by change w.remaining + more ≠ 0; omega, hdone.2⟩
          rw [walk_succ_of_goes hdone, Outcome.bind_eq_ok] at h
          rw [walk_succ_of_goes hgoes, Outcome.bind_eq_ok] at h'
          obtain ⟨w₁, hstep, h⟩ := h
          obtain ⟨v₁, hstep', h'⟩ := h'
          have hless := (onward_of_step hlimit hw hstep).remaining
          rcases step_abreast_or_onward hlimit hw hmore hstep hstep' with rfl | ⟨hnone, honward⟩
          · exact ih (step_underway hlimit hw hstep).1 (by omega) h h'
          · rw [walk_of_isDone (isDone_iff.2 (Or.inl hnone))] at h
            obtain rfl := Except.ok.inj h
            have hunderway : Underway c (w.withLeft (w.remaining + more)) :=
              ⟨hw.price, hw.toward, hmore⟩
            exact honward.trans
              (onward_of_walk hlimit (step_underway hlimit hunderway hstep').1 h')

end Swap

/-! ### The swaps -/

namespace Market

variable {m : Market}

/-- **A larger swap goes further.** From a market that a run leads to, for any fee config, any extension,
any supplied arrays, any price limit, mode and direction: if a swap succeeds, and also with a larger amount
and any threshold, then the larger one takes in and hands out at least as much and ends at least as far in
the direction of the swap. -/
theorem larger_swap_goes_further (h : Attained m) {config : FeeConfig}
    {extension : Option BitmapExtension} {arrays : List TickArray} {r : SwapRequest} {time : Nat}
    {more threshold : Nat} (hle : r.amount ≤ more) (hmore : more < 2 ^ 64)
    {result result' : SwapResult} {b b' : SwapBook}
    (hswap : Clmm.swap config extension r time ⟨m.pool, arrays⟩ = .ok result b)
    (hswap' : Clmm.swap config extension { r with amount := more, threshold } time
      ⟨m.pool, arrays⟩ = .ok result' b') :
    result.amountIn ≤ result'.amountIn ∧ result.amountOut ≤ result'.amountOut ∧
      r.direction.Leads b.pool.sqrtPrice b'.pool.sqrtPrice := by
  obtain ⟨c, cursor, w, hswapped⟩ := Swap.swap_eq_ok hswap
  obtain ⟨c', cursor', w', hswapped'⟩ := Swap.swap_eq_ok hswap'
  obtain rfl : c = c' := Except.ok.inj (hswapped.course_eq.symm.trans hswapped'.course_eq)
  obtain rfl : cursor = cursor' := Except.ok.inj (hswapped.cursor_eq.symm.trans hswapped'.cursor_eq)
  have hlow := Swap.lt_effectiveLimit h.orderly.price hswapped.limit_eq
  obtain ⟨hahead, -⟩ := Swap.checkLimit_eq_ok hswapped.limit_eq
  obtain ⟨edges, -, rfl⟩ := Swap.course_eq_ok hswapped.course_eq
  obtain ⟨extra, rfl⟩ := Nat.exists_eq_add_of_le hle
  obtain ⟨hless, hgained, hleads⟩ := Swap.walk_onward hlow
    ⟨h.orderly.price, hahead, Nat.lt_of_le_of_lt hle hmore⟩ hmore hswapped.walk_eq hswapped'.walk_eq
  change w'.remaining ≤ w.remaining + extra at hless
  change w.calculated ≤ w'.calculated at hgained
  have hprice : b.pool.sqrtPrice = w.sqrtPrice := by rw [hswapped.pool]
  have hprice' : b'.pool.sqrtPrice = w'.sqrtPrice := by rw [hswapped'.pool]
  have hsettles := Swap.settle_eq_ok hswapped.settle_eq
  have hsettles' := Swap.settle_eq_ok hswapped'.settle_eq
  have hamounts := hsettles.amounts
  have hamounts' := hsettles'.amounts
  have hsettled : r.amount - w.remaining ≤ r.amount + extra - w'.remaining := by
    have := hsettles.remaining
    omega
  rw [hprice, hprice']
  cases hmode : r.mode with
  | exactIn =>
      simp only [hmode] at hamounts hamounts'
      rw [hamounts.1, hamounts.2, hamounts'.1, hamounts'.2]
      exact ⟨hsettled, hgained, hleads⟩
  | exactOut =>
      simp only [hmode] at hamounts hamounts'
      rw [hamounts.1, hamounts.2, hamounts'.1, hamounts'.2]
      exact ⟨hgained, hsettled, hleads⟩

/-- From tick 5, 300 of token 0 lead down without a crossing, and 1000 of it past tick 0. -/
theorem larger_swap_goes_further_openings : ∃ m total result result' b b',
    sample 10 5 openings = .ok (m, total) ∧
    Clmm.swap m.config none ⟨300, 0, 0, .exactIn, .down⟩ 0 ⟨m.pool, m.pick [0, -600]⟩ =
      .ok result b ∧ result.crossed = 0 ∧
    Clmm.swap m.config none ⟨1000, 1, 0, .exactIn, .down⟩ 0 ⟨m.pool, m.pick [0, -600]⟩ =
      .ok result' b' ∧ 0 < result'.crossed ∧
    result.amountIn ≤ result'.amountIn ∧ result.amountOut ≤ result'.amountOut ∧
      b'.pool.sqrtPrice ≤ b.pool.sqrtPrice := by
  obtain ⟨m, total, hsample, hrun⟩ := exists_of_sample (P := fun x =>
      succeedsWith (fun (q : SwapResult) (_ : SwapBook) => q.crossed == 0)
          (Clmm.swap x.1.config none ⟨300, 0, 0, .exactIn, .down⟩ 0
            ⟨x.1.pool, x.1.pick [0, -600]⟩) &&
        succeedsWith (fun (q : SwapResult) (_ : SwapBook) => decide (0 < q.crossed))
          (Clmm.swap x.1.config none ⟨1000, 1, 0, .exactIn, .down⟩ 0
            ⟨x.1.pool, x.1.pick [0, -600]⟩))
    (show (sample 10 5 openings).toOption.any _ = true by decide +kernel)
  obtain ⟨hfirst, hsecond⟩ := Bool.and_eq_true_iff.1 hrun
  obtain ⟨result, b, hswap, hnone⟩ := exists_of_succeedsWith hfirst
  obtain ⟨result', b', hswap', hsome⟩ := exists_of_succeedsWith hsecond
  obtain ⟨hin, hout, hleads⟩ := larger_swap_goes_further (reached_of_sample hsample).attained
    (by decide) (by decide) hswap hswap'
  exact ⟨m, total, result, result', b, b', hsample, hswap, by simpa using hnone, hswap',
    of_decide_eq_true hsome, hin, hout, hleads⟩

end Market

end Clmm
