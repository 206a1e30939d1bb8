import Clmm.Proofs.InstructionFrame

/-!
# Clmm.Proofs.PoolInstructions

**What the instructions on pools do to the ledger, in outline.** A swap and a collection of fees change no
outline, and neither do the instructions on a hook registry. A new pool comes with its vaults, whose mints
and whose holder are those that the pool says.
-/

namespace Clmm

open Ledger

variable {e e' : Execution} {refs : List AccountRef} {u : Unit} {l : Ledger}
  {news : List (Key × Account)} {mints : List Key}

/-! ### Swapping -/

namespace Trading

variable {rest : List AccountRef}

/-- A tick array lies at a key. -/
def isArray (l : Ledger) (ref : AccountRef) : Bool :=
  ((l.get? ref.key).bind Account.asTickArray?).isSome

theorem arrayAt?_eq_some {pool : Key} {ref : AccountRef} {a : Loaded TickArray}
    (h : arrayAt? l pool ref = .ok (some a)) :
    isArray l ref = true ∧ l.get? a.key = some (.tickArray a.value) := by
  unfold arrayAt? at h
  cases hget : (l.get? ref.key).bind Account.asTickArray? with
  | none =>
    rw [hget] at h
    cases h
  | some array =>
    simp only [hget, Outcome.bind_eq_ok] at h
    obtain ⟨_, -, h⟩ := h
    obtain rfl := Option.some.inj (Except.ok.inj h)
    obtain ⟨account, haccount, hkind⟩ := Option.bind_eq_some_iff.1 hget
    refine ⟨by rw [isArray, hget, Option.isSome_some], haccount.trans ?_⟩
    cases account <;> simp_all [Account.asTickArray?]

theorem arrayAt?_eq_none {pool : Key} {ref : AccountRef} (h : arrayAt? l pool ref = .ok none) :
    isArray l ref = false := by
  unfold arrayAt? at h
  cases hget : (l.get? ref.key).bind Account.asTickArray? with
  | none => rw [isArray, hget, Option.isSome_none]
  | some array =>
    simp only [hget, Outcome.bind_eq_ok] at h
    obtain ⟨_, -, h⟩ := h
    cases h

/-- The tick arrays are taken off the front, up to the first account that is none. -/
theorem takeLeading_eq_ok {pool : Key} {refs : List AccountRef} {arrays : List (Loaded TickArray)}
    (h : takeLeading (arrayAt? l pool) refs = .ok (arrays, rest)) :
    rest = refs.dropWhile (isArray l) ∧
      ∀ a ∈ arrays, l.get? a.key = some (.tickArray a.value) := by
  induction refs generalizing arrays with
  | nil =>
    obtain ⟨rfl, rfl⟩ := Prod.mk.inj (Except.ok.inj h)
    exact ⟨rfl, by simp⟩
  | cons ref refs ih =>
    simp only [takeLeading, Outcome.bind_eq_ok] at h
    obtain ⟨o, hat, h⟩ := h
    cases o with
    | none =>
      obtain ⟨rfl, rfl⟩ := Prod.mk.inj (Except.ok.inj h)
      rw [List.dropWhile_cons_of_neg (by simp [arrayAt?_eq_none hat])]
      exact ⟨rfl, by simp⟩
    | some a =>
      obtain ⟨⟨as, tail⟩, htail, h⟩ := Outcome.bind_eq_ok.1 h
      obtain ⟨rfl, rfl⟩ := Prod.mk.inj (Except.ok.inj h)
      obtain ⟨harray, ha⟩ := arrayAt?_eq_some hat
      obtain ⟨hrest, has⟩ := ih htail
      rw [List.dropWhile_cons_of_pos harray]
      exact ⟨hrest, List.forall_mem_cons.2 ⟨ha, has⟩⟩

/-- What a swap did: it changed no outline and moved tokens of the mints of the two vaults that it was
given, which are those of the pool. -/
structure Accounts.Swapped (a : Accounts) (l : Ledger) (refs : List AccountRef) (e' : Execution) :
    Prop where
  poolRef : refs[2]? = some a.pool.ref
  pool : l.get? a.pool.key = some (.pool a.pool.value)
  vaults : ∃ d : Direction, a.inputVault.key = a.pool.value.vaults.get d.input ∧
    a.outputVault.key = a.pool.value.vaults.get d.output
  inputVault : l.get? a.inputVault.key = some (.token a.inputVault.value)
  outputVault : l.get? a.outputVault.key = some (.token a.outputVault.value)
  authorizes : l.Authorizes [a.inputVault.value.mint, a.outputVault.value.mint]
    (((refs.drop 14).dropWhile (isArray l)).map (·.key))
  moved : e'.trace.MovesOnly [a.inputVault.value.mint, a.outputVault.value.mint]
  agree : Agree l e'.ledger

theorem load_eq_ok {a : Accounts} (h : load l refs = .ok (a, rest)) :
    refs[2]? = some a.pool.ref ∧ rest = refs.drop 14 ∧
      l.get? a.pool.key = some (.pool a.pool.value) ∧
      l.get? a.inputVault.key = some (.token a.inputVault.value) ∧
      l.get? a.outputVault.key = some (.token a.outputVault.value) ∧
      l.get? a.oracle.key = some (.oracle a.oracle.value) ∧
      l.get? a.hooks.key = some (.hooks a.hooks.value) ∧
      l.get? a.inputMint.key = some (.mint a.inputMint.value) ∧
      l.get? a.outputMint.key = some (.mint a.outputMint.value) := by
  unfold load at h
  obtain ⟨payer, _, ⟨rfl, -⟩, h1⟩ := Loading.bind_eq_ok_of h fun _ _ => Loading.signer_eq_ok.1
  obtain ⟨config, _, ⟨rfl, -⟩, h2⟩ := Loading.bind_eq_ok_of h1 fun _ _ => Loading.config_eq_ok.1
  obtain ⟨pool, _, ⟨rfl, hpool⟩, h3⟩ := Loading.bind_eq_ok_of h2 fun _ _ => Loading.pool_eq_ok.1
  obtain ⟨_, _, ⟨rfl, -⟩, h4⟩ := Loading.bind_eq_ok_of h3 fun _ _ => Loading.tokens_eq_ok.1
  obtain ⟨_, _, ⟨rfl, -⟩, h5⟩ := Loading.bind_eq_ok_of h4 fun _ _ => Loading.tokens_eq_ok.1
  obtain ⟨inputVault, _, ⟨rfl, hin⟩, h6⟩ :=
    Loading.bind_eq_ok_of h5 fun _ _ => Loading.tokens_eq_ok.1
  obtain ⟨outputVault, _, ⟨rfl, hout⟩, h7⟩ :=
    Loading.bind_eq_ok_of h6 fun _ _ => Loading.tokens_eq_ok.1
  obtain ⟨oracle, _, ⟨rfl, horacle⟩, h8⟩ :=
    Loading.bind_eq_ok_of h7 fun _ _ => Loading.oracle_eq_ok.1
  obtain ⟨hooks, _, ⟨rfl, hhooks⟩, h9⟩ := Loading.bind_eq_ok_of h8 fun _ _ => Loading.hooks_eq_ok.1
  obtain ⟨extension, _, ⟨ref, rfl, -⟩, h10⟩ :=
    Loading.bind_eq_ok_of h9 fun _ _ => Loading.extension?_eq_ok
  obtain ⟨_, _, ⟨rfl, -⟩, h11⟩ :=
    Loading.bind_eq_ok_of h10 fun _ _ => Loading.anyTokenProgram_eq_ok.1
  obtain ⟨_, _, ⟨rfl, -⟩, h12⟩ :=
    Loading.bind_eq_ok_of h11 fun _ _ => Loading.anyTokenProgram_eq_ok.1
  obtain ⟨inputMint, _, ⟨rfl, hinMint⟩, h13⟩ :=
    Loading.bind_eq_ok_of h12 fun _ _ => Loading.mint_eq_ok.1
  obtain ⟨outputMint, _, ⟨rfl, houtMint⟩, h14⟩ :=
    Loading.bind_eq_ok_of h13 fun _ _ => Loading.mint_eq_ok.1
  obtain ⟨rfl, rfl⟩ := Loading.pure_eq_ok.1 h14
  exact ⟨rfl, rfl, hpool, hin, hout, horacle, hhooks, hinMint, houtMint⟩

theorem check_eq_ok {a : Accounts} (h : check a = .ok u) :
    a.inputMint.key = a.inputVault.value.mint ∧ a.outputMint.key = a.outputVault.value.mint := by
  simp only [check, AccountRef.demandKey, Verdict.bind_eq_ok, demand_eq_ok] at h
  obtain ⟨_, -, _, -, _, -, _, -, _, -, _, -, _, -, _, -, _, -, _, -, _, hin, hout⟩ := h
  exact ⟨hin, hout⟩

theorem direction_eq_ok {a : Accounts} {d : Direction} (h : direction a = .ok d) :
    a.inputVault.key = a.pool.value.vaults.get d.input ∧
      a.outputVault.key = a.pool.value.vaults.get d.output := by
  unfold direction at h
  dsimp only at h
  split at h
  next hin =>
    simp only [Outcome.bind_eq_ok, require_eq_ok] at h
    obtain ⟨_, hout, h⟩ := h
    obtain rfl := Except.ok.inj h
    exact ⟨hin, hout⟩
  next =>
    simp only [Outcome.bind_eq_ok, require_eq_ok] at h
    obtain ⟨_, hin, _, hout, h⟩ := h
    obtain rfl := Except.ok.inj h
    exact ⟨hin, hout⟩

/-- The swap itself writes the pool, its tick arrays and its oracle back. -/
theorem keeps_runSwap {a : Accounts} {arrays : List (Loaded TickArray)} {request : SwapRequest}
    (hpool : l.get? a.pool.key = some (.pool a.pool.value))
    (horacle : l.get? a.oracle.key = some (.oracle a.oracle.value))
    (harrays : ∀ x ∈ arrays, l.get? x.key = some (.tickArray x.value)) :
    Run.Keeps (Execution.Within l news mints) (runSwap a arrays request) := by
  unfold runSwap
  refine .bind ?_ fun now => ?_
  · intro e l' e' he h
    obtain ⟨-, rfl⟩ := Run.ledger_eq_ok.1 h
    exact he
  · dsimp only
    split
    next => exact .throw _
    next result b hswap =>
      obtain ⟨hmints, hvaults⟩ := sameSides_of_swap hswap
      refine .bind (.put ?_ (by simp)) fun _ => .bind (.forM fun x hx => .put ?_ (by simp)) fun _ =>
        .bind (.liftOutcome _) fun oracle => .bind (.put ?_ (by simp)) fun _ => .pure _
      · rw [outline_of_get? hpool, Account.outline_pool hmints hvaults]
      · exact (outline_of_get? (harrays x.1 (List.of_mem_zip hx).1)).trans rfl
      · exact (outline_of_get? horacle).trans rfl

theorem swap_eq_ok {terms : SwapTerms} (h : swap terms refs e = .ok (u, e'))
    (hcalls : e.trace.calls = []) : ∃ a : Accounts, a.Swapped e.ledger refs e' := by
  unfold swap at h
  obtain ⟨a, remaining, hload, h⟩ := Loading.run_bind_eq_ok.1 h
  obtain ⟨hpoolRef, rfl, hpool, hin, hout, horacle, hhooks, hinMint, houtMint⟩ := load_eq_ok hload
  obtain ⟨_, hcheck, h⟩ := Run.lift_bind_eq_ok.1 h
  obtain ⟨hinKey, houtKey⟩ := check_eq_ok hcheck
  obtain ⟨d, hd, h⟩ := Run.liftOutcome_bind_eq_ok.1 h
  obtain ⟨⟨arrays, rest⟩, hleading, h⟩ := Run.liftOutcome_bind_eq_ok.1 (Run.ledger_bind_eq_ok.1 h)
  obtain ⟨rfl, harrays⟩ := takeLeading_eq_ok hleading
  -- the hooks are authorized
  obtain ⟨inputHook, e₁, hauthorizeIn, h⟩ := Run.bind_eq_ok.1 h
  have h₁ := Run.Keeps.authorizeHook
    (.refl hcalls [a.inputVault.value.mint, a.outputVault.value.mint]) hauthorizeIn
  obtain ⟨outputHook, e₂, hauthorizeOut, h⟩ := Run.bind_eq_ok.1 h
  have h₂ := Run.Keeps.authorizeHook h₁ hauthorizeOut
  obtain ⟨_, -, h⟩ := Run.lift_bind_eq_ok.1 h
  -- the swap and the transfers
  obtain ⟨⟨result, pool⟩, e₃, hrun, h⟩ := Run.bind_eq_ok.1 h
  have h₃ := keeps_runSwap hpool horacle harrays h₂ hrun
  have h₄ := Run.Keeps.bind (.payIn (by simp [hinKey])) (fun _ => .bind (.payOut (by simp [houtKey]))
    fun _ => .bind (.emit _) fun _ => .bind (.log _) fun _ => .log _) h₃ h
  refine ⟨a, hpoolRef, hpool, ⟨d, direction_eq_ok hd⟩, hin, hout, ⟨a.hooks.key, a.hooks.value, hhooks,
    ?_⟩, h₄.moved, Creates.nil_iff.1 h₄.creates⟩
  intro mint hmem m hook hm hhook
  simp only [List.mem_cons, List.not_mem_nil, or_false] at hmem
  rcases hmem with rfl | rfl
  · rw [← hinKey, hinMint] at hm
    obtain rfl := Account.mint.inj (Option.some.inj hm)
    exact authorizeHook_eq_ok hauthorizeIn hhook
  · rw [← houtKey, houtMint] at hm
    obtain rfl := Account.mint.inj (Option.some.inj hm)
    exact authorizeHook_eq_ok hauthorizeOut hhook

end Trading

/-! ### Collecting fees -/

namespace FeeCollection

variable {rest : List AccountRef}

/-- What a collection of fees did: it changed no outline and moved tokens of the pool. -/
structure Accounts.Collected (a : Accounts) (l : Ledger) (refs : List AccountRef) (e' : Execution) :
    Prop where
  poolRef : refs[1]? = some a.pool.ref
  pool : l.get? a.pool.key = some (.pool a.pool.value)
  authorizes : l.Authorizes a.pool.value.mintKeys ((refs.drop 12).map (·.key))
  moved : e'.trace.MovesOnly a.pool.value.mintKeys
  agree : Agree l e'.ledger

theorem load_eq_ok {a : Accounts} (h : load l refs = .ok (a, rest)) :
    refs[1]? = some a.pool.ref ∧ rest = refs.drop 12 ∧
      l.get? a.pool.key = some (.pool a.pool.value) ∧
      (∀ x, l.get? (a.tokens.mints.get x).key = some (.mint (a.tokens.mints.get x).value)) ∧
      l.get? a.hooks.key = some (.hooks a.hooks.value) := by
  unfold load at h
  obtain ⟨owner, _, ⟨rfl, -⟩, h1⟩ := Loading.bind_eq_ok_of h fun _ _ => Loading.signer_eq_ok.1
  obtain ⟨pool, _, ⟨rfl, hpool⟩, h2⟩ := Loading.bind_eq_ok_of h1 fun _ _ => Loading.pool_eq_ok.1
  obtain ⟨config, _, ⟨rfl, -⟩, h3⟩ := Loading.bind_eq_ok_of h2 fun _ _ => Loading.config_eq_ok.1
  obtain ⟨_, _, ⟨rfl, -⟩, h4⟩ := Loading.bind_eq_ok_of h3 fun _ _ => Loading.tokens_eq_ok.1
  obtain ⟨_, _, ⟨rfl, -⟩, h5⟩ := Loading.bind_eq_ok_of h4 fun _ _ => Loading.tokens_eq_ok.1
  obtain ⟨mint0, _, ⟨rfl, hmint0⟩, h6⟩ := Loading.bind_eq_ok_of h5 fun _ _ => Loading.mint_eq_ok.1
  obtain ⟨mint1, _, ⟨rfl, hmint1⟩, h7⟩ := Loading.bind_eq_ok_of h6 fun _ _ => Loading.mint_eq_ok.1
  obtain ⟨_, _, ⟨rfl, -⟩, h8⟩ := Loading.bind_eq_ok_of h7 fun _ _ => Loading.tokens_eq_ok.1
  obtain ⟨_, _, ⟨rfl, -⟩, h9⟩ := Loading.bind_eq_ok_of h8 fun _ _ => Loading.tokens_eq_ok.1
  obtain ⟨hooks, _, ⟨rfl, hhooks⟩, h10⟩ := Loading.bind_eq_ok_of h9 fun _ _ => Loading.hooks_eq_ok.1
  obtain ⟨program0, _, ⟨rfl, -⟩, h11⟩ :=
    Loading.bind_eq_ok_of h10 fun _ _ => Loading.anyTokenProgram_eq_ok.1
  obtain ⟨program1, _, ⟨rfl, -⟩, h12⟩ :=
    Loading.bind_eq_ok_of h11 fun _ _ => Loading.anyTokenProgram_eq_ok.1
  obtain ⟨rfl, rfl⟩ := Loading.pure_eq_ok.1 h12
  exact ⟨rfl, rfl, hpool, fun x => by cases x <;> assumption, hhooks⟩

theorem check_eq_ok {a : Accounts} (h : check a = .ok u) :
    a.tokens.demandMints a.pool.value = .ok () := by
  simp only [check, Verdict.bind_eq_ok] at h
  obtain ⟨_, -, _, -, _, -, _, hmints, -⟩ := h
  exact hmints

theorem outline_take (p : Pool) (requested held : Pair Nat) (share : FeeShare) :
    (Account.pool (take p requested held share).1).outline = (Account.pool p).outline := by
  cases share <;> rfl

theorem collectFees_eq_ok {share : FeeShare} {requested : Pair Nat}
    (h : collectFees share requested refs e = .ok (u, e')) (hcalls : e.trace.calls = []) :
    ∃ a : Accounts, a.Collected e.ledger refs e' := by
  unfold collectFees at h
  obtain ⟨a, rest, hload, h⟩ := Loading.run_bind_eq_ok.1 h
  obtain ⟨hpoolRef, rfl, hpool, hmint, hhooks⟩ := load_eq_ok hload
  obtain ⟨_, hcheck, h⟩ := Run.lift_bind_eq_ok.1 h
  obtain ⟨_, -, h⟩ := Run.lift_bind_eq_ok.1 h
  obtain ⟨legs, e₁, hauthorized, h⟩ := Run.bind_eq_ok.1 h
  obtain ⟨hauthorizes, hlegs⟩ :=
    authorizes_of_authorized hmint hhooks (check_eq_ok hcheck) hauthorized
  have h₁ := Run.Keeps.authorized (.refl hcalls a.pool.value.mintKeys) hauthorized
  obtain ⟨_, e₂, hput, h⟩ := Run.bind_eq_ok.1 h
  have h₂ := Run.Keeps.put ((outline_of_get? hpool).trans (congrArg some (outline_take _ _ _ _).symm))
    (by simp) h₁ hput
  have h₃ := Run.Keeps.bind (.payOutBoth hlegs) (fun _ => .bind (.emit _) fun _ => .log _) h₂ h
  exact ⟨a, hpoolRef, hpool, hauthorizes, h₃.moved, Creates.nil_iff.1 h₃.creates⟩

end FeeCollection

/-! ### Creating pools and tick arrays -/

namespace PoolCreation

/-- What the creation of a pool did: it created the pool where it belongs, its oracle and its extension,
and two vaults that hold tokens of the pool's mints for the pool. -/
structure Accounts.Created (a : Accounts) (l l' : Ledger) : Prop where
  locate : ∃ bump, (Site.pool a.config.key a.mints.zero.key a.mints.one.key).locate =
    .ok ⟨a.pool.key, bump⟩
  creates : ∃ p o x t₀ t₁, Creates l [(a.pool.key, .pool p), (a.extension.key, .extension x),
      (a.oracle.key, .oracle o), (p.vaults.one, .token t₁), (p.vaults.zero, .token t₀)] l' ∧
    (t₀.mint = p.mints.zero ∧ t₀.holder = a.pool.key) ∧ t₁.mint = p.mints.one ∧
    t₁.holder = a.pool.key

theorem freshAccount_eq_ok {program mint holder : Key} {m : Mint} {t : TokenAccount}
    (h : TokenProgram.freshAccount program mint holder m = .ok t) :
    t.mint = mint ∧ t.holder = holder := by
  unfold TokenProgram.freshAccount at h
  have h := Verdict.eq_ok_of_checked h
  obtain ⟨_, -, h⟩ := Verdict.bind_eq_ok.1 h
  have h := Verdict.eq_ok_of_checked h
  obtain rfl := Verdict.pure_eq_ok.1 h
  exact ⟨rfl, rfl⟩

theorem within_of_createVault (hw : e.Within l news mints) {a : Accounts} {x : Token}
    (h : createVault a x e = .ok (u, e')) :
    ∃ t, e'.Within l (((a.vaults.get x).key, .token t) :: news) mints ∧
      t.mint = (a.mints.get x).key ∧ t.holder = a.pool.key := by
  unfold createVault at h
  obtain ⟨_, -, h⟩ := Run.lift_bind_eq_ok.1 h
  obtain ⟨_, _, hroom, htokens⟩ := Run.bind_eq_ok.1 h
  obtain ⟨hvacant, rfl⟩ := makeRoom_eq_ok hroom
  obtain ⟨t, ht, hput⟩ := Run.lift_bind_eq_ok.1 htokens
  obtain rfl := Run.put_eq_ok.1 hput
  exact ⟨t, ⟨hw.creates.put hvacant (by simp), hw.moved⟩, freshAccount_eq_ok ht⟩

theorem fresh_eq_ok {bump spacing sqrtPrice openTime : Nat} {b : Pool.Binding} {p : Pool}
    (h : Pool.fresh bump b spacing sqrtPrice openTime = .ok p) :
    p.mints = b.mints ∧ p.vaults = b.vaults := by
  simp only [Pool.fresh, Outcome.bind_eq_ok] at h
  obtain ⟨_, -, tick, -, h⟩ := h
  obtain rfl := Except.ok.inj h
  exact ⟨rfl, rfl⟩

theorem createPool_eq_ok {sqrtPrice openTime : Nat}
    (h : createPool sqrtPrice openTime refs e = .ok (u, e')) (hcalls : e.trace.calls = []) :
    ∃ a : Accounts, a.Created e.ledger e'.ledger := by
  unfold createPool at h
  obtain ⟨a, rest, -, h⟩ := Loading.run_bind_eq_ok.1 h
  -- the five accounts are created
  obtain ⟨_, e₅, hcreate, h⟩ := Run.bind_eq_ok.1 h
  unfold create at hcreate
  obtain ⟨bump, e₁, hpool, hcreate⟩ := Run.bind_eq_ok.1 hcreate
  obtain ⟨hlocate, h₁⟩ := within_of_createAt (.refl hcalls []) (by simp) hpool
  obtain ⟨_, e₂, hvault₀, hcreate⟩ := Run.bind_eq_ok.1 hcreate
  obtain ⟨t₀, h₂, hmint₀, hholder₀⟩ := within_of_createVault h₁ hvault₀
  obtain ⟨_, e₃, hvault₁, hcreate⟩ := Run.bind_eq_ok.1 hcreate
  obtain ⟨t₁, h₃, hmint₁, hholder₁⟩ := within_of_createVault h₂ hvault₁
  obtain ⟨_, e₄, horacle, hcreate⟩ := Run.bind_eq_ok.1 hcreate
  obtain ⟨-, h₄⟩ := within_of_createAt h₃ (by simp) horacle
  obtain ⟨_, _, hextension, hcreate⟩ := Run.bind_eq_ok.1 hcreate
  obtain ⟨-, h₅⟩ := within_of_createAt h₄ (by simp) hextension
  obtain ⟨-, rfl⟩ := Run.pure_eq_ok.1 hcreate
  -- the pool is set up; what else is written has the outline that was created
  obtain ⟨_, -, h⟩ := Run.lift_bind_eq_ok.1 h
  obtain ⟨p, hp, h⟩ := Run.liftOutcome_bind_eq_ok.1 h
  obtain ⟨hmints, hvaults⟩ := fresh_eq_ok hp
  replace h := Run.put_bind_eq_ok.1 h
  have h₆ := (h₅.perm (@List.perm_append_comm _ [_, _, _, _] [_])).rewrite
    (b := .pool p) (by simp)
  replace h := Run.put_bind_eq_ok.1 h
  have h₇ := h₆.put_new (k := a.oracle.key) (a := .oracle (.fresh 0))
    (b := .oracle (.fresh a.pool.key)) (by simp) rfl
  replace h := Run.put_bind_eq_ok.1 h
  have h₈ := h₇.put_new (k := a.extension.key) (a := .extension (.empty 0))
    (b := .extension (.empty a.pool.key)) (by simp) rfl
  have h₉ := Run.Keeps.bind (.emit _) (fun _ => .bind (.log _) fun _ => .bind (.log _) fun _ =>
    .bind (.log _) fun _ => .bind (.log _) fun _ => .log _) h₈ h
  refine ⟨a, ⟨bump, hlocate⟩, p, .fresh 0, .empty 0, t₀, t₁, ?_, ⟨?_, hholder₀⟩, ?_, hholder₁⟩
  · rw [hvaults]
    exact h₉.creates
  · rw [hmint₀, hmints]
    rfl
  · rw [hmint₁, hmints]
    rfl

/-- Creating a tick array creates this one account. -/
theorem createTickArray_eq_ok {start : Int} (h : createTickArray start refs e = .ok (u, e'))
    (hcalls : e.trace.calls = []) : ∃ k array, Creates e.ledger [(k, .tickArray array)] e'.ledger := by
  unfold createTickArray at h
  obtain ⟨⟨pool, target, payer⟩, rest, -, h⟩ := Loading.run_bind_eq_ok.1 h
  obtain ⟨bump, e₁, hcreate, h⟩ := Run.bind_eq_ok.1 h
  obtain ⟨-, h₁⟩ := within_of_createAt (.refl hcalls []) (by simp) hcreate
  obtain ⟨_, -, h⟩ := Run.lift_bind_eq_ok.1 h
  obtain ⟨array, -, h⟩ := Run.liftOutcome_bind_eq_ok.1 h
  replace h := Run.put_bind_eq_ok.1 h
  have h₂ := h₁.rewrite (b := .tickArray array) (by simp)
  have h₃ := Run.Keeps.bind (.log _) (fun _ => .bind (.log _) fun _ => .log _) h₂ h
  exact ⟨target.key, array, h₃.creates⟩

end PoolCreation

/-! ### Governing fee configs and hooks -/

namespace Governance

/-- Creating a fee config creates this one account. -/
theorem createConfig_eq_ok {index : Nat} {params : FeeConfig.Params}
    (h : createConfig index params refs e = .ok (u, e')) (hcalls : e.trace.calls = []) :
    ∃ k config, Creates e.ledger [(k, .config config)] e'.ledger := by
  unfold createConfig at h
  obtain ⟨⟨owner, target⟩, rest, -, h⟩ := Loading.run_bind_eq_ok.1 h
  obtain ⟨bump, e₁, hcreate, h⟩ := Run.bind_eq_ok.1 h
  obtain ⟨-, h₁⟩ := within_of_createAt (.refl hcalls []) (by simp) hcreate
  obtain ⟨_, -, h⟩ := Run.lift_bind_eq_ok.1 h
  obtain ⟨config, -, h⟩ := Run.liftOutcome_bind_eq_ok.1 h
  replace h := Run.put_bind_eq_ok.1 h
  have h₂ := h₁.rewrite (b := .config config) (by simp)
  have h₃ := Run.Keeps.bind (.emit _) (fun _ => .bind (.log _) fun _ => .bind (.log _) fun _ =>
    .log _) h₂ h
  exact ⟨target.key, config, h₃.creates⟩

/-- Creating the hook registry creates it where it belongs. -/
theorem createHooks_eq_ok (h : createHooks refs e = .ok (u, e')) (hcalls : e.trace.calls = []) :
    ∃ k registry bump, Site.hooks.locate = .ok ⟨k, bump⟩ ∧
      Creates e.ledger [(k, .hooks registry)] e'.ledger := by
  unfold createHooks at h
  obtain ⟨⟨admin, target⟩, rest, -, h⟩ := Loading.run_bind_eq_ok.1 h
  obtain ⟨bump, e₁, hcreate, h⟩ := Run.bind_eq_ok.1 h
  obtain ⟨hlocate, h₁⟩ := within_of_createAt (.refl hcalls []) (by simp) hcreate
  obtain ⟨_, -, h⟩ := Run.lift_bind_eq_ok.1 h
  obtain ⟨_, -, h⟩ := Run.lift_bind_eq_ok.1 h
  replace h := Run.put_bind_eq_ok.1 h
  have h₂ := h₁.rewrite (b := .hooks (.empty admin.key bump)) (by simp)
  have h₃ := Run.Keeps.log _ h₂ h
  exact ⟨target.key, _, bump, hlocate, h₃.creates⟩

/-- Writing a registry back changes no outline. -/
theorem agree_of_writeHooks {hooks : Loaded HookRegistry} {registry : HookRegistry} {event : Event}
    {line : String} (hhooks : e.ledger.get? hooks.key = some (.hooks hooks.value))
    (hcalls : e.trace.calls = [])
    (h : (do Run.put hooks.key (.hooks registry); Run.emit event; Run.log line) e = .ok (u, e')) :
    Agree e.ledger e'.ledger := by
  have hput : e.ledger.outline hooks.key = some (Account.hooks registry).outline :=
    (outline_of_get? hhooks).trans rfl
  have h₁ := Run.Keeps.bind (.put hput (by simp)) (fun _ => .bind (.emit _) fun _ => .log _)
    (.refl hcalls []) h
  exact Creates.nil_iff.1 h₁.creates

/-- Registering a hook program writes the registry and changes no outline. -/
theorem registerHook_eq_ok {program : Key} (h : registerHook program refs e = .ok (u, e'))
    (hcalls : e.trace.calls = []) : Agree e.ledger e'.ledger := by
  unfold registerHook at h
  obtain ⟨hooks, rest, hload, h⟩ := Loading.run_bind_eq_ok.1 h
  obtain ⟨-, hhooks⟩ := Loading.hooks_eq_ok.1 hload
  obtain ⟨_, -, h⟩ := Run.lift_bind_eq_ok.1 h
  obtain ⟨_, -, h⟩ := Run.lift_bind_eq_ok.1 h
  obtain ⟨registry, -, h⟩ := Run.liftOutcome_bind_eq_ok.1 h
  exact agree_of_writeHooks hhooks hcalls h

/-- So does approving one. -/
theorem approveHook_eq_ok {program : Key} (h : approveHook program refs e = .ok (u, e'))
    (hcalls : e.trace.calls = []) : Agree e.ledger e'.ledger := by
  unfold approveHook at h
  obtain ⟨⟨hooks, authority⟩, rest, hload, h⟩ := Loading.run_bind_eq_ok.1 h
  obtain ⟨hooks', _, hhooks, hload⟩ := Loading.bind_eq_ok.1 hload
  obtain ⟨-, hhooks⟩ := Loading.hooks_eq_ok.1 hhooks
  obtain ⟨_, _, -, hload⟩ := Loading.bind_eq_ok.1 hload
  obtain ⟨heq, -⟩ := Loading.pure_eq_ok.1 hload
  obtain ⟨rfl, rfl⟩ := Prod.mk.inj heq
  obtain ⟨_, -, h⟩ := Run.lift_bind_eq_ok.1 h
  obtain ⟨_, -, h⟩ := Run.lift_bind_eq_ok.1 h
  obtain ⟨registry, -, h⟩ := Run.liftOutcome_bind_eq_ok.1 h
  exact agree_of_writeHooks hhooks hcalls h

end Governance

end Clmm
