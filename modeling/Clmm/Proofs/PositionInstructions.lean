import Clmm.Proofs.InstructionFrame

/-!
# Clmm.Proofs.PositionInstructions

**What the instructions on positions do to the ledger, in outline.** Opening a position creates three
accounts. A change of a position writes it anew, with the same mint, and its closing removes it; both ask
for the signature of the holder of its token, and a closing for a position in which nothing is left.
-/

namespace Clmm

open Ledger

variable {e e' : Execution} {refs : List AccountRef} {u : Unit} {l : Ledger}
  {news : List (Key × Account)} {mints : List Key}

/-! ### The pool's side of a change -/

namespace PositionChange.PoolSide

variable {s : PoolSide} {l : Ledger} {news : List (Key × Account)} {mints : List Key}

/-- What was loaded lies on the ledger, as far as outlines show. -/
structure Held (s : PoolSide) (l : Ledger) : Prop where
  pool : l.outline s.pool.key = some (Account.pool s.pool.value).outline
  lower : l.outline s.lower.key = some (Account.tickArray s.lower.value).outline
  upper : l.outline s.upper.key = some (Account.tickArray s.upper.value).outline
  extension : ∀ x ∈ s.extension, l.outline x.key = some (Account.extension x.value).outline

namespace Held

theorem of_get? (hpool : l.get? s.pool.key = some (.pool s.pool.value))
    (hlower : l.get? s.lower.key = some (.tickArray s.lower.value))
    (hupper : l.get? s.upper.key = some (.tickArray s.upper.value))
    (hextension : ∀ x ∈ s.extension, l.get? x.key = some (.extension x.value)) : s.Held l :=
  ⟨outline_of_get? hpool, outline_of_get? hlower, outline_of_get? hupper,
    fun x hx => outline_of_get? (hextension x hx)⟩

theorem array (h : s.Held l) {a : Loaded TickArray} (ha : a ∈ s.arrays) (array : TickArray) :
    l.outline a.key = some (Account.tickArray array).outline := by
  unfold arrays at ha
  split at ha
  · obtain rfl := List.mem_singleton.1 ha
    exact h.lower
  · simp only [List.mem_cons, List.not_mem_nil, or_false] at ha
    rcases ha with rfl | rfl
    · exact h.lower
    · exact h.upper

end Held

theorem change_eq_ok {α : Type} {position p : Position} {u : Update Book α} {a : α}
    {e e' : Execution} (h : s.change position u e = .ok ((p, a), e')) :
    ∃ b, u (s.book position) = .ok a b ∧ b.position = p ∧ s.write b e = .ok ((), e') := by
  unfold change at h
  cases hu : u (s.book position) with
  | error f b => simp [hu] at h
  | ok a' b =>
    simp only [hu, Run.bind_eq_ok, Run.pure_eq_ok, Prod.mk.injEq] at h
    obtain ⟨_, t, hwrite, ⟨rfl, rfl⟩, rfl⟩ := h
    exact ⟨b, rfl, rfl, hwrite⟩

/-- Writing back a book of the same pool changes no outline. -/
theorem keeps_write (h : s.Held l) {position : Position} {b : Book}
    (hb : (s.book position).SameSides b) :
    Run.Keeps (Execution.Within l news mints) (s.write b) := by
  refine .bind (.put ?_ (by simp)) fun _ =>
    .bind (.forM fun x hx => .put (h.array (List.of_mem_zip hx).1 x.2) (by simp)) fun _ => ?_
  · rw [h.pool]
    exact congrArg some (Account.outline_pool hb.mints hb.vaults).symm
  · split
    next x extension hx hextension => exact .put (h.extension x hx) (by simp)
    next => exact .pure _

end PositionChange.PoolSide

namespace PositionChange

/-! ### Opening a position -/

variable {rest : List AccountRef}

theorem loadOpen_eq_ok {a : OpenAccounts} (h : loadOpen l refs = .ok (a, rest)) :
    refs[4]? = some a.side.pool.ref ∧ rest = refs.drop 21 ∧
      l.get? a.side.pool.key = some (.pool a.side.pool.value) ∧ a.side.Held l ∧
      (∀ x, l.get? (a.tokens.mints.get x).key = some (.mint (a.tokens.mints.get x).value)) ∧
      l.get? a.hooks.key = some (.hooks a.hooks.value) := by
  unfold loadOpen at h
  obtain ⟨payer, _, ⟨rfl, -⟩, h1⟩ := Loading.bind_eq_ok_of h fun _ _ => Loading.signer_eq_ok.1
  obtain ⟨holder, _, rfl, h2⟩ := Loading.bind_eq_ok_of h1 fun _ _ => Loading.next_eq_ok.1
  obtain ⟨nft, _, rfl, h3⟩ := Loading.bind_eq_ok_of h2 fun _ _ => Loading.next_eq_ok.1
  obtain ⟨nftAccount, _, rfl, h4⟩ := Loading.bind_eq_ok_of h3 fun _ _ => Loading.next_eq_ok.1
  obtain ⟨pool, _, ⟨rfl, hpool⟩, h5⟩ := Loading.bind_eq_ok_of h4 fun _ _ => Loading.pool_eq_ok.1
  obtain ⟨position, _, rfl, h6⟩ := Loading.bind_eq_ok_of h5 fun _ _ => Loading.next_eq_ok.1
  obtain ⟨lower, _, ⟨rfl, hlower⟩, h7⟩ :=
    Loading.bind_eq_ok_of h6 fun _ _ => Loading.tickArray_eq_ok.1
  obtain ⟨upper, _, ⟨rfl, hupper⟩, h8⟩ :=
    Loading.bind_eq_ok_of h7 fun _ _ => Loading.tickArray_eq_ok.1
  obtain ⟨account0, _, ⟨rfl, -⟩, h9⟩ := Loading.bind_eq_ok_of h8 fun _ _ => Loading.tokens_eq_ok.1
  obtain ⟨account1, _, ⟨rfl, -⟩, h10⟩ := Loading.bind_eq_ok_of h9 fun _ _ => Loading.tokens_eq_ok.1
  obtain ⟨vault0, _, ⟨rfl, -⟩, h11⟩ := Loading.bind_eq_ok_of h10 fun _ _ => Loading.tokens_eq_ok.1
  obtain ⟨vault1, _, ⟨rfl, -⟩, h12⟩ := Loading.bind_eq_ok_of h11 fun _ _ => Loading.tokens_eq_ok.1
  obtain ⟨mint0, _, ⟨rfl, hmint0⟩, h13⟩ := Loading.bind_eq_ok_of h12 fun _ _ => Loading.mint_eq_ok.1
  obtain ⟨mint1, _, ⟨rfl, hmint1⟩, h14⟩ := Loading.bind_eq_ok_of h13 fun _ _ => Loading.mint_eq_ok.1
  obtain ⟨extension, _, ⟨ref, rfl, hextension⟩, h15⟩ :=
    Loading.bind_eq_ok_of h14 fun _ _ => Loading.extension?_eq_ok
  obtain ⟨hooks, _, ⟨rfl, hhooks⟩, h16⟩ :=
    Loading.bind_eq_ok_of h15 fun _ _ => Loading.hooks_eq_ok.1
  obtain ⟨nftProgram, _, ⟨rfl, -⟩, h17⟩ :=
    Loading.bind_eq_ok_of h16 fun _ _ => Loading.anyTokenProgram_eq_ok.1
  obtain ⟨program0, _, ⟨rfl, -⟩, h18⟩ :=
    Loading.bind_eq_ok_of h17 fun _ _ => Loading.anyTokenProgram_eq_ok.1
  obtain ⟨program1, _, ⟨rfl, -⟩, h19⟩ :=
    Loading.bind_eq_ok_of h18 fun _ _ => Loading.anyTokenProgram_eq_ok.1
  obtain ⟨_, _, ⟨rfl, -⟩, h20⟩ := Loading.bind_eq_ok_of h19 fun _ _ => Loading.program_eq_ok.1
  obtain ⟨_, _, ⟨rfl, -⟩, h21⟩ := Loading.bind_eq_ok_of h20 fun _ _ => Loading.program_eq_ok.1
  obtain ⟨rfl, rfl⟩ := Loading.pure_eq_ok.1 h21
  exact ⟨rfl, rfl, hpool, .of_get? hpool hlower hupper hextension,
    fun x => by cases x <;> assumption, hhooks⟩

theorem loadChange_eq_ok {a : ChangeAccounts} {vaultsFirst : Bool}
    (h : loadChange vaultsFirst l refs = .ok (a, rest)) :
    refs[2]? = some a.side.pool.ref ∧ rest = refs.drop 16 ∧
      l.get? a.side.pool.key = some (.pool a.side.pool.value) ∧ a.side.Held l ∧
      (∀ x, l.get? (a.tokens.mints.get x).key = some (.mint (a.tokens.mints.get x).value)) ∧
      l.get? a.hooks.key = some (.hooks a.hooks.value) ∧
      (a.holder ∈ refs ∧ a.holder.isSigner = true) ∧
      l.get? a.nftAccount.key = some (.token a.nftAccount.value) ∧
      l.get? a.position.key = some (.position a.position.value) := by
  unfold loadChange at h
  obtain ⟨holder, _, ⟨rfl, hsigner⟩, h1⟩ :=
    Loading.bind_eq_ok_of h fun _ _ => Loading.signer_eq_ok.1
  obtain ⟨nftAccount, _, ⟨rfl, hnft⟩, h2⟩ :=
    Loading.bind_eq_ok_of h1 fun _ _ => Loading.tokens_eq_ok.1
  obtain ⟨pool, _, ⟨rfl, hpool⟩, h3⟩ := Loading.bind_eq_ok_of h2 fun _ _ => Loading.pool_eq_ok.1
  obtain ⟨position, _, ⟨rfl, hposition⟩, h4⟩ :=
    Loading.bind_eq_ok_of h3 fun _ _ => Loading.position_eq_ok.1
  obtain ⟨lower, _, ⟨rfl, hlower⟩, h5⟩ :=
    Loading.bind_eq_ok_of h4 fun _ _ => Loading.tickArray_eq_ok.1
  obtain ⟨upper, _, ⟨rfl, hupper⟩, h6⟩ :=
    Loading.bind_eq_ok_of h5 fun _ _ => Loading.tickArray_eq_ok.1
  obtain ⟨_, _, ⟨rfl, -⟩, h7⟩ := Loading.bind_eq_ok_of h6 fun _ _ => Loading.tokens_eq_ok.1
  obtain ⟨_, _, ⟨rfl, -⟩, h8⟩ := Loading.bind_eq_ok_of h7 fun _ _ => Loading.tokens_eq_ok.1
  obtain ⟨_, _, ⟨rfl, -⟩, h9⟩ := Loading.bind_eq_ok_of h8 fun _ _ => Loading.tokens_eq_ok.1
  obtain ⟨_, _, ⟨rfl, -⟩, h10⟩ := Loading.bind_eq_ok_of h9 fun _ _ => Loading.tokens_eq_ok.1
  obtain ⟨mint0, _, ⟨rfl, hmint0⟩, h11⟩ := Loading.bind_eq_ok_of h10 fun _ _ => Loading.mint_eq_ok.1
  obtain ⟨mint1, _, ⟨rfl, hmint1⟩, h12⟩ := Loading.bind_eq_ok_of h11 fun _ _ => Loading.mint_eq_ok.1
  obtain ⟨extension, _, ⟨ref, rfl, hextension⟩, h13⟩ :=
    Loading.bind_eq_ok_of h12 fun _ _ => Loading.extension?_eq_ok
  obtain ⟨hooks, _, ⟨rfl, hhooks⟩, h14⟩ :=
    Loading.bind_eq_ok_of h13 fun _ _ => Loading.hooks_eq_ok.1
  obtain ⟨program0, _, ⟨rfl, -⟩, h15⟩ :=
    Loading.bind_eq_ok_of h14 fun _ _ => Loading.anyTokenProgram_eq_ok.1
  obtain ⟨program1, _, ⟨rfl, -⟩, h16⟩ :=
    Loading.bind_eq_ok_of h15 fun _ _ => Loading.anyTokenProgram_eq_ok.1
  obtain ⟨rfl, rfl⟩ := Loading.pure_eq_ok.1 h16
  exact ⟨rfl, rfl, hpool, .of_get? hpool hlower hupper hextension,
    fun x => by cases x <;> assumption, hhooks, ⟨List.mem_cons_self, hsigner⟩, hnft, hposition⟩

/-- The account for the token of a position. -/
theorem within_of_createNftAccount (hw : e.Within l news mints) {a : OpenAccounts}
    (h : createNftAccount a e = .ok (u, e')) :
    ∃ t, e'.Within l ((a.nftAccount.key, .token t) :: news) mints := by
  simp only [createNftAccount, Run.liftOutcome_bind_eq_ok, Run.lift_bind_eq_ok,
    Run.ledger_bind_eq_ok] at h
  obtain ⟨_, -, _, -, _, -, _, -, h⟩ := h
  exact ⟨_, within_of_makeRoom hw (by simp) h⟩

/-- The token of a position is issued. -/
theorem within_of_issue {program nft account pool : Key} {m : Mint}
    (hw : e.Within l ((nft, .mint m) :: news) mints)
    (h : Run.call program (.mintTo nft account pool 1) e = .ok (u, e')) :
    e'.Within l ((nft, .mint { m with supply := m.supply + 1 }) :: news) mints := by
  obtain ⟨l', hrun, rfl⟩ := Run.call_eq_ok.1 h
  obtain ⟨dst, m', hdst, hm', -, rfl⟩ := TokenProgram.issue_eq_ok hrun
  have hm := get?_mint_of_outline (hw.creates.new (nft, .mint m) List.mem_cons_self)
  obtain rfl := Account.mint.inj (Option.some.inj (hm.symm.trans hm'))
  have hagree := (Agree.refl e.ledger).put_same
    (a := .token { dst with amount := dst.amount + 1 }) ((outline_of_get? hdst).trans rfl)
  exact ⟨(hw.creates.of_agree hagree).rewrite (by simp),
    hw.moved.append (by simp [TokenCall.moves?])⟩

theorem demandMints_of_checkOpen {a : OpenAccounts} {range : RangeChoice}
    (h : checkOpen a range = .ok u) : a.tokens.demandMints a.side.pool.value = .ok () := by
  simp only [checkOpen, Verdict.bind_eq_ok] at h
  obtain ⟨_, -, _, -, _, -, _, -, _, -, _, -, _, -, _, -, _, hmints, -⟩ := h
  exact hmints

/-- What the opening of a position did: its mint was created and one token of it issued, with an account
for this token, and the position lies where its address is derived from the mint. -/
structure OpenAccounts.Opened (a : OpenAccounts) (l : Ledger) (refs : List AccountRef)
    (e' : Execution) : Prop where
  poolRef : refs[4]? = some a.side.pool.ref
  pool : l.get? a.side.pool.key = some (.pool a.side.pool.value)
  authorizes : l.Authorizes a.side.pool.value.mintKeys ((refs.drop 21).map (·.key))
  moved : e'.trace.MovesOnly a.side.pool.value.mintKeys
  creates : ∃ m t q bump, Creates l [(a.nft.key, .mint m), (a.position.key, .position q),
      (a.nftAccount.key, .token t)] e'.ledger ∧
    (m.supply = 1 ∧ m.hook = none ∧ m.authority = some a.side.pool.key) ∧ q.nft = a.nft.key ∧
    (Site.position a.nft.key).locate = .ok ⟨a.position.key, bump⟩

theorem openPosition_eq_ok {range : RangeChoice} {deposit : Deposit}
    (h : openPosition range deposit refs e = .ok (u, e')) (hcalls : e.trace.calls = []) :
    ∃ a : OpenAccounts, a.Opened e.ledger refs e' := by
  unfold openPosition at h
  obtain ⟨a, rest, hload, h⟩ := Loading.run_bind_eq_ok.1 h
  obtain ⟨hpoolRef, rfl, hpool, hheld, hmint, hhooks⟩ := loadOpen_eq_ok hload
  have h₀ := Execution.Within.refl hcalls a.side.pool.value.mintKeys
  obtain ⟨_, e₁, hnft, h⟩ := Run.bind_eq_ok.1 h
  have h₁ := within_of_makeRoom h₀ (by simp) hnft
  obtain ⟨_, e₂, haccount, h⟩ := Run.bind_eq_ok.1 h
  obtain ⟨t, h₂⟩ := within_of_createNftAccount h₁ haccount
  obtain ⟨bump, e₃, hcreate, h⟩ := Run.bind_eq_ok.1 h
  obtain ⟨hlocate, h₃⟩ := within_of_createAt h₂ (by simp) hcreate
  obtain ⟨_, hcheck, h⟩ := Run.lift_bind_eq_ok.1 h
  -- the hooks are authorized and the liquidity is changed
  obtain ⟨legs, e₄, hauthorized, h⟩ := Run.bind_eq_ok.1 h
  obtain ⟨hauthorizes, hlegs⟩ :=
    authorizes_of_authorized hmint hhooks (demandMints_of_checkOpen hcheck) hauthorized
  have h₄ := Run.Keeps.authorized h₃ hauthorized
  obtain ⟨⟨position, liquidity, change⟩, e₅, hchange, h⟩ := Run.bind_eq_ok.1 h
  obtain ⟨b, hb, hposition, hwrite⟩ := PoolSide.change_eq_ok hchange
  have hsides := Book.SameSides.of_addDeposit hb
  have h₅ := PoolSide.keeps_write hheld hsides h₄ hwrite
  replace h := Run.put_bind_eq_ok.1 h
  have h₆ := h₅.rewrite (b := .position position) (by simp)
  -- the deposit is paid in and the token is issued
  obtain ⟨_, e₇, hpay, h⟩ := Run.bind_eq_ok.1 h
  have h₇ := Run.Keeps.payInBoth hlegs h₆ hpay
  obtain ⟨_, e₈, hissue, h⟩ := Run.bind_eq_ok.1 h
  have h₈ := within_of_issue
    (h₇.perm (@List.perm_append_comm _ [_, _] [_])) hissue
  have h₉ := Run.Keeps.bind (.emit _)
    (fun _ => .bind (.log _) fun _ => .bind (.log _) fun _ => .log _) h₈ h
  have hnft : position.nft = a.nft.key := by
    rw [← hposition, hsides.nft]
    rfl
  exact ⟨a, hpoolRef, hpool, hauthorizes, h₉.moved,
    ⟨_, t, position, bump, h₉.creates, ⟨rfl, rfl, rfl⟩, hnft, hlocate⟩⟩

/-! ### Changing a position -/

/-- What a change of a position did: a signer who holds the token of the position had it written anew,
with the same mint. -/
structure ChangeAccounts.Changed (a : ChangeAccounts) (l : Ledger) (refs : List AccountRef)
    (e' : Execution) : Prop where
  poolRef : refs[2]? = some a.side.pool.ref
  pool : l.get? a.side.pool.key = some (.pool a.side.pool.value)
  authorizes : l.Authorizes a.side.pool.value.mintKeys ((refs.drop 16).map (·.key))
  moved : e'.trace.MovesOnly a.side.pool.value.mintKeys
  position : l.get? a.position.key = some (.position a.position.value)
  signer : a.holder ∈ refs ∧ a.holder.isSigner = true
  tokens : l.get? a.nftAccount.key = some (.token a.nftAccount.value)
  holds : a.nftAccount.value.mint = a.position.value.nft ∧ a.nftAccount.value.amount = 1 ∧
    a.nftAccount.value.holder = a.holder.key
  changes : ∃ q, q.nft = a.position.value.nft ∧
    Agree (l.put a.position.key (.position q)) e'.ledger

theorem checkChange_eq_ok {a : ChangeAccounts} {vaultsFirst : Bool}
    (h : checkChange a vaultsFirst = .ok u) :
    (a.nftAccount.value.mint = a.position.value.nft ∧ a.nftAccount.value.amount = 1 ∧
      a.nftAccount.value.holder = a.holder.key) ∧
    a.tokens.demandMints a.side.pool.value = .ok () := by
  -- the two orders of the checks differ in nothing that matters here
  cases vaultsFirst <;>
  · simp only [checkChange, demandHolder, Verdict.bind_eq_ok, demand_eq_ok, if_true,
      Bool.false_eq_true, if_false] at h
    obtain ⟨_, ⟨_, hmint, _, hamount, hkey⟩, _, -, _, -, _, -, _, -, _, -, _, -, _, hmints, -⟩ := h
    exact ⟨⟨hmint, hamount, hkey⟩, hmints⟩

/-- Both changes of a position write the position of a changed book, and go on with what changes no
outline. -/
theorem changed_of_run {α : Type} {a : ChangeAccounts} {vaultsFirst : Bool} {rest : List AccountRef}
    {legs : Pair Leg} {x : α} {q : Position} {change : Update Book α} {tail : Run Unit}
    {e₁ e₂ : Execution} (hload : loadChange vaultsFirst e.ledger refs = .ok (a, rest))
    (hcheck : checkChange a vaultsFirst = .ok u) (hcalls : e.trace.calls = [])
    (hauthorized : a.tokens.authorized a.hooks rest e = .ok (legs, e₁))
    (hchange : a.side.change a.position.value change e₁ = .ok ((q, x), e₂))
    (hsides : ∀ b, change (a.side.book a.position.value) = .ok x b →
      (a.side.book a.position.value).SameSides b)
    (hrun : (do Run.put a.position.key (.position q); tail) e₂ = .ok (u, e'))
    (htail : (∀ x, (legs.get x).mint.key ∈ a.side.pool.value.mintKeys) → ∀ l,
      Run.Keeps (Execution.Within l [] a.side.pool.value.mintKeys) tail) :
    a.Changed e.ledger refs e' := by
  obtain ⟨hpoolRef, rfl, hpool, hheld, hmint, hhooks, hsigner, htokens, hposition⟩ :=
    loadChange_eq_ok hload
  obtain ⟨hholds, hmints⟩ := checkChange_eq_ok hcheck
  obtain ⟨hauthorizes, hlegs⟩ := authorizes_of_authorized hmint hhooks hmints hauthorized
  have h₁ := Run.Keeps.authorized (.refl hcalls a.side.pool.value.mintKeys) hauthorized
  obtain ⟨b, hb, rfl, hwrite⟩ := PoolSide.change_eq_ok hchange
  have h₂ := PoolSide.keeps_write hheld (hsides b hb) h₁ hwrite
  have hrest := Run.put_bind_eq_ok.1 hrun
  have h' := htail hlegs _ (h₂.put a.position.key (.position b.position)) hrest
  exact ⟨hpoolRef, hpool, hauthorizes, h'.moved, hposition, hsigner, htokens, hholds,
    ⟨b.position, (hsides b hb).nft, Creates.nil_iff.1 h'.creates⟩⟩

theorem increaseLiquidity_eq_ok {deposit : Deposit}
    (h : increaseLiquidity deposit refs e = .ok (u, e')) (hcalls : e.trace.calls = []) :
    ∃ a : ChangeAccounts, a.Changed e.ledger refs e' := by
  unfold increaseLiquidity at h
  obtain ⟨a, rest, hload, h⟩ := Loading.run_bind_eq_ok.1 h
  obtain ⟨_, hcheck, h⟩ := Run.lift_bind_eq_ok.1 h
  obtain ⟨legs, e₁, hauthorized, h⟩ := Run.bind_eq_ok.1 h
  obtain ⟨⟨position, liquidity, change⟩, e₂, hchange, h⟩ := Run.bind_eq_ok.1 h
  refine ⟨a, changed_of_run hload hcheck hcalls hauthorized hchange
    (fun _ => Book.SameSides.of_addDeposit) h fun hlegs l => ?_⟩
  exact .bind (.payInBoth hlegs) fun _ => .bind (.emit _) fun _ => .bind (.log _) fun _ => .log _

theorem decreaseLiquidity_eq_ok {liquidity : Nat} {minima : Pair Nat}
    (h : decreaseLiquidity liquidity minima refs e = .ok (u, e')) (hcalls : e.trace.calls = []) :
    ∃ a : ChangeAccounts, a.Changed e.ledger refs e' := by
  unfold decreaseLiquidity at h
  obtain ⟨a, rest, hload, h⟩ := Loading.run_bind_eq_ok.1 h
  obtain ⟨_, hcheck, h⟩ := Run.lift_bind_eq_ok.1 h
  obtain ⟨legs, e₁, hauthorized, h⟩ := Run.bind_eq_ok.1 h
  obtain ⟨⟨position, change⟩, e₂, hchange, h⟩ := Run.bind_eq_ok.1 h
  refine ⟨a, changed_of_run hload hcheck hcalls hauthorized hchange
    (fun _ => Book.SameSides.of_decreaseLiquidity) h fun hlegs l => ?_⟩
  exact .bind (.liftOutcome _) fun _ => .bind (.payOutBoth hlegs) fun _ => .bind (.emit _) fun _ =>
    .bind (.log _) fun _ => .log _

/-! ### Closing a position -/

/-- What the closing of a position did: a signer who holds its token had the token destroyed and the
position removed, with nothing left in it. -/
structure CloseAccounts.Closed (a : CloseAccounts) (l : Ledger) (refs : List AccountRef)
    (l' : Ledger) : Prop where
  position : l.get? a.position.key = some (.position a.position.value)
  empty : a.position.value.isEmpty = true
  signer : a.holder ∈ refs ∧ a.holder.isSigner = true
  tokens : l.get? a.nftAccount.key = some (.token a.nftAccount.value)
  holds : a.nftAccount.value.mint = a.position.value.nft ∧ a.nftAccount.value.amount = 1 ∧
    a.nftAccount.value.holder = a.holder.key
  closes : ∃ program l₁ l₂,
    TokenProgram.run program (.burn a.nftAccount.key a.nft.key a.holder.key 1) l = .ok l₁ ∧
    TokenProgram.run program (.closeAccount a.nftAccount.key a.holder.key a.holder.key) l₁ = .ok l₂ ∧
    l' = l₂.remove a.position.key

theorem loadClose_eq_ok {a : CloseAccounts} (h : loadClose l refs = .ok (a, rest)) :
    (a.holder ∈ refs ∧ a.holder.isSigner = true) ∧
      l.get? a.nftAccount.key = some (.token a.nftAccount.value) ∧
      l.get? a.position.key = some (.position a.position.value) := by
  unfold loadClose at h
  obtain ⟨holder, _, ⟨rfl, hsigner⟩, h1⟩ :=
    Loading.bind_eq_ok_of h fun _ _ => Loading.signer_eq_ok.1
  obtain ⟨nft, _, ⟨rfl, -⟩, h2⟩ := Loading.bind_eq_ok_of h1 fun _ _ => Loading.mint_eq_ok.1
  obtain ⟨nftAccount, _, ⟨rfl, htokens⟩, h3⟩ :=
    Loading.bind_eq_ok_of h2 fun _ _ => Loading.tokens_eq_ok.1
  obtain ⟨position, _, ⟨rfl, hposition⟩, h4⟩ :=
    Loading.bind_eq_ok_of h3 fun _ _ => Loading.position_eq_ok.1
  obtain ⟨nftProgram, _, ⟨rfl, -⟩, h5⟩ :=
    Loading.bind_eq_ok_of h4 fun _ _ => Loading.anyTokenProgram_eq_ok.1
  obtain ⟨_, _, ⟨rfl, -⟩, h6⟩ := Loading.bind_eq_ok_of h5 fun _ _ => Loading.program_eq_ok.1
  obtain ⟨rfl, rfl⟩ := Loading.pure_eq_ok.1 h6
  exact ⟨⟨List.mem_cons_self, hsigner⟩, htokens, hposition⟩

theorem checkClose_eq_ok {a : CloseAccounts} (h : checkClose a = .ok u) :
    (a.nftAccount.value.mint = a.position.value.nft ∧ a.nftAccount.value.amount = 1 ∧
      a.nftAccount.value.holder = a.holder.key) ∧ a.position.value.isEmpty = true := by
  simp only [checkClose, AccountRef.demandKey, Verdict.bind_eq_ok, demand_eq_ok] at h
  obtain ⟨_, -, _, -, _, hnft, _, -, _, hamount, _, hholder, _, hmint, _, -, _, -, _, hempty, -⟩ := h
  exact ⟨⟨hmint.trans hnft, hamount, hholder⟩, hempty⟩

theorem closePosition_eq_ok (h : closePosition refs e = .ok (u, e')) :
    ∃ a : CloseAccounts, a.Closed e.ledger refs e'.ledger := by
  unfold closePosition at h
  obtain ⟨a, rest, hload, h⟩ := Loading.run_bind_eq_ok.1 h
  obtain ⟨hsigner, htokens, hposition⟩ := loadClose_eq_ok hload
  obtain ⟨_, hcheck, h⟩ := Run.lift_bind_eq_ok.1 h
  obtain ⟨hholds, hempty⟩ := checkClose_eq_ok hcheck
  obtain ⟨_, e₁, hburn, h⟩ := Run.bind_eq_ok.1 h
  obtain ⟨l₁, hburned, rfl⟩ := Run.call_eq_ok.1 hburn
  obtain ⟨_, e₂, hclose, h⟩ := Run.bind_eq_ok.1 h
  obtain ⟨l₂, hclosed, rfl⟩ := Run.call_eq_ok.1 hclose
  obtain ⟨_, e₃, hlog, h⟩ := Run.bind_eq_ok.1 h
  obtain rfl := Run.log_eq_ok.1 hlog
  obtain ⟨_, hl, rfl⟩ := Run.onLedger_eq_ok.1 h
  exact ⟨a, hposition, hempty, hsigner, htokens, hholds,
    ⟨_, l₁, l₂, hburned, hclosed, (Except.ok.inj hl).symm⟩⟩

end PositionChange

end Clmm
