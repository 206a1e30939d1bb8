import Clmm.Proofs.LedgerOutline
import Clmm.Proofs.PositionChange
import Clmm.Proofs.SwapEffect

/-!
# Clmm.Proofs.InstructionFrame

**What the parts of an instruction leave alone.** A change of liquidity keeps the mints and vaults of its
pool and the token of its position, and a swap keeps the mints and vaults of its pool. So an instruction
that loaded a pool, its tick arrays and its extension and writes them back changes the outline of none of
them, and neither do the transfers it makes. `Execution.Within` keeps account of this along a run: which
accounts were created, and of which mints tokens were moved.
-/

namespace Clmm

open Ledger

/-! ### Changes of liquidity and swaps -/

/-- Two books of one position in one pool. -/
structure Book.SameSides (b b' : Book) : Prop where
  mints : b'.pool.mints = b.pool.mints
  vaults : b'.pool.vaults = b.pool.vaults
  nft : b'.position.nft = b.position.nft

namespace Book.SameSides

variable {b b' b'' : Book}

theorem trans (h : SameSides b b') (h' : SameSides b' b'') : SameSides b b'' :=
  ⟨h'.mints.trans h.mints, h'.vaults.trans h.vaults, h'.nft.trans h.nft⟩

theorem of_commits {counts : List CountUpdate} (h : counts.forM CountUpdate.commit b = .ok () b') :
    SameSides b b' := by
  induction counts generalizing b with
  | nil =>
    obtain ⟨-, rfl⟩ := Update.pure_eq_ok.1 h
    exact ⟨rfl, rfl, rfl⟩
  | cons u counts ih =>
    obtain ⟨_, t, hcommit, hrest⟩ := Update.bind_eq_ok.1 h
    obtain ⟨-, hpool, hposition, -⟩ := CountUpdate.commit_eq_ok hcommit (BitmapExtension.empty 0)
    refine trans ⟨?_, ?_, ?_⟩ (ih hrest)
    · rw [hpool]
    · rw [hpool]
    · rw [hposition]

theorem of_modifyPosition {delta : Int} {limits amounts : Pair Nat}
    (h : modifyPosition delta limits b = .ok amounts b') : SameSides b b' := by
  obtain ⟨plan, t, hmake, hcounts, -, rfl⟩ := modifyPosition_eq_ok h
  obtain ⟨_, _, _, _, _, _, settled, hplanned⟩ := make_eq_ok hmake
  obtain ⟨_, -, hsettled⟩ := settle_eq_ok hplanned.settle
  obtain ⟨_, -, hposition⟩ := hplanned.position
  have hsides := of_commits hcounts
  refine ⟨hsides.mints, hsides.vaults, ?_⟩
  change plan.position.nft = _
  rw [hposition, hsettled]

theorem of_addDeposit {d : Deposit} {r : Nat × LiquidityChange} (h : addDeposit d b = .ok r b') :
    SameSides b b' := by
  have hdeposit : Market.deposit d true b = .ok (r.1, r.2) b' := h
  exact of_modifyPosition (Market.deposit_eq_ok hdeposit).2.2.2

theorem of_decreaseLiquidity {n : Nat} {minima : Pair Nat} {change : LiquidityChange}
    (h : decreaseLiquidity n minima b = .ok change b') : SameSides b b' := by
  obtain ⟨t, hmodify, -, rfl⟩ := Market.decreaseLiquidity_eq_ok h
  exact (of_modifyPosition hmodify).trans ⟨rfl, rfl, rfl⟩

end Book.SameSides

/-- A swap goes on in the same pool. -/
theorem sameSides_of_swap {config : FeeConfig} {extension : Option BitmapExtension} {r : SwapRequest}
    {time : Nat} {b b' : SwapBook} {result : SwapResult}
    (h : swap config extension r time b = .ok result b') :
    b'.pool.mints = b.pool.mints ∧ b'.pool.vaults = b.pool.vaults := by
  obtain ⟨_, _, _, hswapped⟩ := Swap.swap_eq_ok h
  rw [hswapped.pool]
  exact ⟨rfl, rfl⟩

theorem Account.outline_pool {p q : Pool} (hmints : q.mints = p.mints) (hvaults : q.vaults = p.vaults) :
    (Account.pool q).outline = (Account.pool p).outline := by
  simp only [Account.outline, hmints, hvaults]

/-! ### What an instruction under way has done -/

/-- The mint whose tokens a call moves. -/
def TokenCall.moves? : TokenCall → Option Key
  | transfer _ mint .. => some mint
  | _ => none

/-- Only tokens of some mints were moved. -/
def Trace.MovesOnly (t : Trace) (mints : List Key) : Prop :=
  ∀ c ∈ t.calls, ∀ m ∈ c.call.moves?, m ∈ mints

theorem Trace.MovesOnly.append {t : Trace} {mints : List Key} (h : t.MovesOnly mints) {program : Key}
    {call : TokenCall} (hcall : ∀ m ∈ call.moves?, m ∈ mints) :
    Trace.MovesOnly { t with calls := t.calls ++ [⟨program, call⟩] } mints := by
  intro c hc
  rcases List.mem_append.1 hc with hc | hc
  · exact h c hc
  · obtain rfl := List.mem_singleton.1 hc
    exact hcall

/-- An instruction under way has, in outline, created some accounts beyond those of a given ledger, and
moved tokens of some mints only. -/
structure Execution.Within (l : Ledger) (news : List (Key × Account)) (mints : List Key)
    (e : Execution) : Prop where
  creates : Creates l news e.ledger
  moved : e.trace.MovesOnly mints

namespace Execution.Within

variable {e : Execution} {l : Ledger} {news : List (Key × Account)} {mints : List Key}

/-- An instruction begins with an empty trace. -/
theorem refl (hcalls : e.trace.calls = []) (mints : List Key) : e.Within e.ledger [] mints :=
  ⟨Creates.nil_iff.2 (.refl _), by simp [Trace.MovesOnly, hcalls]⟩

/-- Writing an existing account anew is a change of the given ledger. -/
theorem put (h : e.Within l [] mints) (k : Key) (a : Account) :
    Execution.Within (l.put k a) [] mints { e with ledger := e.ledger.put k a } :=
  ⟨Creates.nil_iff.2 ((Creates.nil_iff.1 h.creates).put rfl), h.moved⟩

/-- Writing one of the new accounts again, with the same outline. -/
theorem put_new {k : Key} {a b : Account} (h : e.Within l news mints) (hmem : (k, a) ∈ news)
    (hab : b.outline = a.outline) :
    Execution.Within l news mints { e with ledger := e.ledger.put k b } :=
  ⟨h.creates.of_agree ((Agree.refl e.ledger).put_same (hab ▸ h.creates.new (k, a) hmem)), h.moved⟩

/-- The account created last is written anew. -/
theorem rewrite {k : Key} {a : Account} (h : e.Within l ((k, a) :: news) mints) {b : Account}
    (hb : b ≠ .wallet) :
    Execution.Within l ((k, b) :: news) mints { e with ledger := e.ledger.put k b } :=
  ⟨h.creates.rewrite hb, h.moved⟩

theorem perm {news' : List (Key × Account)} (h : e.Within l news mints) (hp : news.Perm news') :
    e.Within l news' mints :=
  ⟨h.creates.perm hp, h.moved⟩

end Execution.Within

namespace Run.Keeps

variable {l : Ledger} {news : List (Key × Account)} {mints : List Key}

theorem put {k : Key} {a : Account} (hk : l.outline k = some a.outline) (ha : a ≠ .wallet) :
    Keeps (Execution.Within l news mints) (Run.put k a) := by
  intro e _ e' he h
  obtain rfl := Run.put_eq_ok.1 h
  exact ⟨he.creates.put_same hk ha, he.moved⟩

theorem emit (event : Event) : Keeps (Execution.Within l news mints) (Run.emit event) := by
  intro e _ e' he h
  obtain rfl := Run.emit_eq_ok.1 h
  exact ⟨he.creates, he.moved⟩

theorem log (line : String) : Keeps (Execution.Within l news mints) (Run.log line) := by
  intro e _ e' he h
  obtain rfl := Run.log_eq_ok.1 h
  exact ⟨he.creates, he.moved⟩

theorem transfer {program source mint destination authority : Key} {amount decimals : Nat}
    {further : List Key} (hmint : mint ∈ mints) :
    Keeps (Execution.Within l news mints)
      (Run.call program (.transfer source mint destination authority amount decimals further)) := by
  intro e _ e' he h
  obtain ⟨l', hrun, rfl⟩ := Run.call_eq_ok.1 h
  refine ⟨he.creates.of_agree (TokenProgram.agree_of_transfer hrun), he.moved.append ?_⟩
  simpa [TokenCall.moves?] using hmint

theorem payIn {leg : Leg} {authority : Key} {rest : List AccountRef} {amount : Nat}
    (hmint : leg.mint.key ∈ mints) :
    Keeps (Execution.Within l news mints) (leg.payIn authority rest amount) :=
  ite (fun _ => pure _) fun _ => transfer hmint

theorem payOut {leg : Leg} {pool : Key} {rest : List AccountRef} {amount : Nat}
    (hmint : leg.mint.key ∈ mints) :
    Keeps (Execution.Within l news mints) (leg.payOut pool rest amount) :=
  ite (fun _ => pure _) fun _ => transfer hmint

theorem payInBoth {legs : Pair Leg} {authority : Key} {rest : List AccountRef} {amounts : Pair Nat}
    (hmints : ∀ x, (legs.get x).mint.key ∈ mints) :
    Keeps (Execution.Within l news mints) (payInBoth legs authority rest amounts) :=
  bind (payIn (hmints .zero)) fun _ => payIn (hmints .one)

theorem payOutBoth {legs : Pair Leg} {pool : Key} {rest : List AccountRef} {amounts : Pair Nat}
    (hmints : ∀ x, (legs.get x).mint.key ∈ mints) :
    Keeps (Execution.Within l news mints) (payOutBoth legs pool rest amounts) :=
  bind (payOut (hmints .zero)) fun _ => payOut (hmints .one)

theorem authorizeHook {registry : Loaded HookRegistry} {mint : Loaded Mint} {rest : List AccountRef} :
    Keeps (Execution.Within l news mints) (authorizeHook registry mint rest) := by
  refine bind (liftOutcome _) fun hook => ?_
  cases hook with
  | none => exact pure _
  | some program => exact bind (log _) fun _ => pure _

theorem authorized {t : PoolTokens} {registry : Loaded HookRegistry} {rest : List AccountRef} :
    Keeps (Execution.Within l news mints) (t.authorized registry rest) :=
  bind authorizeHook fun _ => bind authorizeHook fun _ => pure _

end Run.Keeps

/-! ### Hooks that were authorized -/

variable {e e' : Execution} {refs : List AccountRef} {u : Unit}

/-- Some registry on the ledger has approved the hook programs of the mints, and all of them are among
the keys that were provided. -/
def Ledger.Authorizes (l : Ledger) (mints provided : List Key) : Prop :=
  ∃ k r, l.get? k = some (.hooks r) ∧ ∀ mint ∈ mints, ∀ m hook, l.get? mint = some (.mint m) →
    m.hookProgram = some hook → r.status? hook = some .approved ∧ hook ∈ provided

theorem authorizeHook_eq_ok {registry : Loaded HookRegistry} {mint : Loaded Mint}
    {rest : List AccountRef} {o : Option Key}
    (h : authorizeHook registry mint rest e = .ok (o, e')) {hook : Key}
    (hhook : mint.value.hookProgram = some hook) :
    registry.value.status? hook = some .approved ∧ hook ∈ rest.map (·.key) := by
  simp only [authorizeHook, Run.bind_eq_ok, Run.liftOutcome_eq_ok] at h
  obtain ⟨_, _, ⟨hauthorize, -⟩, -⟩ := h
  simp only [HookRegistry.authorize, HookRegistry.requireApproved, hhook, Outcome.bind_eq_ok,
    require_eq_ok] at hauthorize
  obtain ⟨_, happroved, _, hprovided, -⟩ := hauthorize
  exact ⟨happroved, hprovided⟩

theorem authorized_eq_ok {t : PoolTokens} {registry : Loaded HookRegistry} {rest : List AccountRef}
    {legs : Pair Leg} (h : t.authorized registry rest e = .ok (legs, e')) :
    (∀ x hook, (t.mints.get x).value.hookProgram = some hook →
      registry.value.status? hook = some .approved ∧ hook ∈ rest.map (·.key)) ∧
      ∀ x, (legs.get x).mint = t.mints.get x := by
  simp only [PoolTokens.authorized, Run.bind_eq_ok, Run.pure_eq_ok] at h
  obtain ⟨_, _, h0, _, _, h1, rfl, -⟩ := h
  constructor
  · intro x hook hhook
    cases x with
    | zero => exact authorizeHook_eq_ok h0 hhook
    | one => exact authorizeHook_eq_ok h1 hhook
  · intro x
    cases x <;> rfl

theorem demandMints_eq_ok {t : PoolTokens} {p : Pool} (h : t.demandMints p = .ok u) (x : Token) :
    (t.mints.get x).key = p.mints.get x := by
  simp only [PoolTokens.demandMints, AccountRef.demandKey, Verdict.bind_eq_ok, demand_eq_ok] at h
  obtain ⟨_, h0, h1⟩ := h
  cases x with
  | zero => exact h0
  | one => exact h1

/-- The mints of a pool. -/
def Pool.mintKeys (p : Pool) : List Key := [p.mints.zero, p.mints.one]

theorem Pool.mem_mintKeys (p : Pool) (x : Token) : p.mints.get x ∈ p.mintKeys := by
  cases x <;> simp [mintKeys]

/-- The registry that an instruction loaded authorizes the mints of the pool that it loaded. -/
theorem authorizes_of_authorized {l : Ledger} {t : PoolTokens} {registry : Loaded HookRegistry}
    {rest : List AccountRef} {legs : Pair Leg} {p : Pool}
    (hmint : ∀ x, l.get? (t.mints.get x).key = some (.mint (t.mints.get x).value))
    (hhooks : l.get? registry.key = some (.hooks registry.value)) (hmints : t.demandMints p = .ok u)
    (h : t.authorized registry rest e = .ok (legs, e')) :
    l.Authorizes p.mintKeys (rest.map (·.key)) ∧ ∀ x, (legs.get x).mint.key ∈ p.mintKeys := by
  obtain ⟨happroved, hlegs⟩ := authorized_eq_ok h
  refine ⟨⟨registry.key, registry.value, hhooks, ?_⟩, fun x => ?_⟩
  · intro mint hmem m hook hm hhook
    obtain ⟨x, rfl⟩ : ∃ x, mint = p.mints.get x := by
      simp only [Pool.mintKeys, List.mem_cons, List.not_mem_nil, or_false] at hmem
      rcases hmem with rfl | rfl
      · exact ⟨.zero, rfl⟩
      · exact ⟨.one, rfl⟩
    rw [← demandMints_eq_ok hmints x, hmint x] at hm
    obtain rfl := Account.mint.inj (Option.some.inj hm)
    exact happroved x hook hhook
  · rw [hlegs x, demandMints_eq_ok hmints x]
    exact p.mem_mintKeys x

/-! ### New accounts -/

variable {l : Ledger} {news : List (Key × Account)} {mints : List Key}

/-- An account is created where nothing was. -/
theorem within_of_makeRoom (hw : e.Within l news mints) {payer target : AccountRef} {agreed : Bool}
    {a : Account} (ha : a ≠ .wallet)
    (h : (do makeRoom payer target agreed; Run.put target.key a) e = .ok (u, e')) :
    e'.Within l ((target.key, a) :: news) mints := by
  obtain ⟨_, _, hroom, hput⟩ := Run.bind_eq_ok.1 h
  obtain ⟨hvacant, rfl⟩ := makeRoom_eq_ok hroom
  obtain rfl := Run.put_eq_ok.1 hput
  exact ⟨hw.creates.put hvacant ha, hw.moved⟩

/-- An account of the program is created where it belongs. -/
theorem within_of_createAt (hw : e.Within l news mints) {payer target : AccountRef} {s : Site}
    {a : Account} (ha : a ≠ .wallet) {bump : Nat}
    (h : createAt payer target s a e = .ok (bump, e')) :
    s.locate = .ok ⟨target.key, bump⟩ ∧ e'.Within l ((target.key, a) :: news) mints := by
  simp only [createAt, Run.bind_eq_ok, Run.liftOutcome_eq_ok, Run.lift_eq_ok, demand_eq_ok,
    Run.put_eq_ok, Run.pure_eq_ok] at h
  obtain ⟨located, _, ⟨hlocate, rfl⟩, _, _, ⟨hkey, rfl⟩, _, _, hroom, _, _, rfl, rfl, rfl⟩ := h
  obtain ⟨hvacant, rfl⟩ := makeRoom_eq_ok hroom
  exact ⟨by rw [hlocate, hkey], hw.creates.put hvacant ha, hw.moved⟩

end Clmm
