import Clmm.Ledger.Client
import Clmm.Proofs.LedgerHistory

/-!
# Clmm.Proofs.HookAuthorization

**No hook runs without approval** (`no_unapproved_hook_runs`). Six instructions move tokens of a pool: the
opening of a position, its two changes, the swap and the two collections of fees. Each of them loads the
mints of its pool in a way of its own, and each asks the registry about both of them before it does
anything. A swap is not given the mints by side but by its direction, and is not told them by the pool but
by the vaults; that these are the mints of the pool is an invariant of the ledger.
-/

namespace Clmm

open Ledger

namespace Instruction

/-- The place of the pool among the accounts of an instruction that moves tokens of a pool. -/
def poolPlace? : Instruction → Option Nat
  | openPosition .. => some 4
  | increaseLiquidity _ | decreaseLiquidity .. | swap _ => some 2
  | collectFees .. => some 1
  | _ => none

/-- The accounts that such an instruction leaves for hooks. A swap first takes the tick arrays at their
head. -/
def remaining (l : Ledger) (refs : List AccountRef) : Instruction → List AccountRef
  | openPosition .. => refs.drop 21
  | increaseLiquidity _ | decreaseLiquidity .. => refs.drop 16
  | swap _ => (refs.drop 14).dropWhile (Trading.isArray l)
  | collectFees .. => refs.drop 12
  | _ => []

end Instruction

namespace Ledger

/-- The registry, which lies where it belongs, has approved the program. -/
def Approves (l : Ledger) (program : Key) : Prop :=
  ∃ k r, Site.hooks.IsAt k ∧ l.get? k = some (.hooks r) ∧ r.status? program = some .approved

/-- The ledger after something was sent to the program. What is rejected leaves it as it was. -/
def submit (l : Ledger) (data : Bytes) (refs : List AccountRef) : Ledger :=
  match l.execute data refs with
  | .ok (l', _) => l'
  | .error _ => l

end Ledger

variable {l : Ledger} {refs : List AccountRef} {e e' : Execution} {i : Instruction} {place : Nat}

/-! ### Flags do not matter -/

namespace Processor

theorem exists_of_getElem?_shareFlags {n : Nat} {ref : AccountRef}
    (h : (shareFlags refs)[n]? = some ref) : ∃ r, refs[n]? = some r ∧ r.key = ref.key := by
  rw [shareFlags, List.getElem?_map] at h
  obtain ⟨r, hr, rfl⟩ := Option.map_eq_some_iff.1 h
  exact ⟨r, hr, rfl⟩

/-- Sharing flags keeps the keys of the accounts that are left for hooks. -/
theorem map_key_remaining_shareFlags (l : Ledger) (refs : List AccountRef) (i : Instruction) :
    (i.remaining l (shareFlags refs)).map (·.key) = (i.remaining l refs).map (·.key) := by
  have hdrop : ∀ n, ((shareFlags refs).drop n).map (·.key) = (refs.drop n).map (·.key) := by
    intro n
    simp only [shareFlags, ← List.map_drop, List.map_map]
    rfl
  cases i with
  | swap terms =>
    simp only [Instruction.remaining, shareFlags, ← List.map_drop, List.dropWhile_map, List.map_map]
    rfl
  | openPosition range deposit => exact hdrop 21
  | increaseLiquidity deposit => exact hdrop 16
  | decreaseLiquidity liquidity minima => exact hdrop 16
  | collectFees share requested => exact hdrop 12
  | _ => rfl

end Processor

/-! ### Each instruction asks for both mints -/

theorem Ledger.Authorizes.mono {mints mints' provided : List Key} (h : l.Authorizes mints provided)
    (hsub : mints' ⊆ mints) : l.Authorizes mints' provided := by
  obtain ⟨k, r, hr, hall⟩ := h
  exact ⟨k, r, hr, fun mint hmem => hall mint (hsub hmem)⟩

theorem Trace.MovesOnly.mono {t : Trace} {mints mints' : List Key} (h : t.MovesOnly mints)
    (hsub : mints ⊆ mints') : t.MovesOnly mints' :=
  fun c hc m hm => hsub (h c hc m hm)

/-- What lies in a vault of a pool are tokens of the vault's mint. -/
theorem Ledger.PoolInPlace.mint_of_vault {k : Key} {p : Pool} (h : l.PoolInPlace k p) {x : Token}
    {t : TokenAccount} (ht : l.get? (p.vaults.get x) = some (.token t)) :
    t.mint = p.mints.get x := by
  obtain ⟨t', ht', hmint, -⟩ := h.vaults x
  rw [ht] at ht'
  obtain rfl := Account.token.inj (Option.some.inj ht')
  exact hmint

/-- The vaults that a swap is given are those of its pool, in the order of its direction, and so are
their mints. -/
theorem Trading.Accounts.Swapped.mints {a : Accounts} (h : a.Swapped l refs e) (hs : l.Sound) :
    ∃ d : Direction, a.inputVault.value.mint = a.pool.value.mints.get d.input ∧
      a.outputVault.value.mint = a.pool.value.mints.get d.output := by
  obtain ⟨d, hinput, houtput⟩ := h.vaults
  have hplace := hs.pools _ _ h.pool
  exact ⟨d, hplace.mint_of_vault (hinput ▸ h.inputVault),
    hplace.mint_of_vault (houtput ▸ h.outputVault)⟩

/-- An instruction that moves tokens of the pool at its place has the hooks of both mints authorized. -/
theorem Processor.authorizes_of_dispatch {u : Unit} (hi : i.poolPlace? = some place)
    (h : dispatch refs i e = .ok (u, e')) (hcalls : e.trace.calls = []) (hs : e.ledger.Sound) :
    ∃ (ref : AccountRef) (p : Pool), refs[place]? = some ref ∧
      e.ledger.get? ref.key = some (.pool p) ∧
      e.ledger.Authorizes p.mintKeys ((i.remaining e.ledger refs).map (·.key)) ∧
      e'.trace.MovesOnly p.mintKeys := by
  cases i with
  | openPosition range deposit =>
    obtain rfl := Option.some.inj hi
    obtain ⟨a, ha⟩ := PositionChange.openPosition_eq_ok h hcalls
    exact ⟨_, _, ha.poolRef, ha.pool, ha.authorizes, ha.moved⟩
  | increaseLiquidity deposit =>
    obtain rfl := Option.some.inj hi
    obtain ⟨a, ha⟩ := PositionChange.increaseLiquidity_eq_ok h hcalls
    exact ⟨_, _, ha.poolRef, ha.pool, ha.authorizes, ha.moved⟩
  | decreaseLiquidity liquidity minima =>
    obtain rfl := Option.some.inj hi
    obtain ⟨a, ha⟩ := PositionChange.decreaseLiquidity_eq_ok h hcalls
    exact ⟨_, _, ha.poolRef, ha.pool, ha.authorizes, ha.moved⟩
  | collectFees share requested =>
    obtain rfl := Option.some.inj hi
    obtain ⟨a, ha⟩ := FeeCollection.collectFees_eq_ok h hcalls
    exact ⟨_, _, ha.poolRef, ha.pool, ha.authorizes, ha.moved⟩
  | swap terms =>
    obtain rfl := Option.some.inj hi
    obtain ⟨a, ha⟩ := Trading.swap_eq_ok h hcalls
    obtain ⟨d, hinput, houtput⟩ := ha.mints hs
    have hauthorizes := ha.authorizes
    have hmoved := ha.moved
    rw [hinput, houtput] at hauthorizes hmoved
    -- either direction has both mints
    refine ⟨_, _, ha.poolRef, ha.pool, hauthorizes.mono ?_, hmoved.mono ?_⟩ <;>
      cases d <;> simp [Pool.mintKeys, Direction.input, Direction.output, Token.other]
  | _ => cases hi

/-! ### The theorem -/

/-- On every ledger that is attained, whatever accounts an instruction on a pool is given: if a mint of the
pool has a hook program, the instruction succeeds only if the registry has approved the program, which is
then among the accounts left for hooks, and it moves tokens of the pool's mints only. If the program is not
approved, the instruction is rejected and changes nothing. -/
theorem no_unapproved_hook_runs (hl : l.Attained) (hi : i.poolPlace? = some place) {ref : AccountRef}
    (href : refs[place]? = some ref) {p : Pool} (hp : l.get? ref.key = some (.pool p)) {x : Token}
    {m : Mint} (hm : l.get? (p.mints.get x) = some (.mint m)) {hook : Key}
    (hhook : m.hookProgram = some hook) :
    (∀ e, l.Does i refs e → l.Approves hook ∧ hook ∈ (i.remaining l refs).map (·.key) ∧
      e.trace.MovesOnly p.mintKeys) ∧
    (¬ l.Approves hook → ∀ data, Instruction.ofBytes data = .ok i →
      (∃ r, l.execute data refs = .error r) ∧ l.submit data refs = l) := by
  have hsuccess : ∀ e, l.Does i refs e → l.Approves hook ∧
      hook ∈ (i.remaining l refs).map (·.key) ∧ e.trace.MovesOnly p.mintKeys := by
    intro e hdoes
    obtain ⟨e₀, rfl, hcalls, hrun⟩ := hdoes.dispatch
    obtain ⟨ref', p', href', hp', ⟨k, r, hr, hall⟩, hmoved⟩ :=
      Processor.authorizes_of_dispatch hi hrun hcalls hl.sound
    -- the pool is the one that was loaded
    obtain ⟨s, hs, hkey⟩ := Processor.exists_of_getElem?_shareFlags href'
    obtain rfl := Option.some.inj (href.symm.trans hs)
    rw [← hkey, hp] at hp'
    obtain rfl := Account.pool.inj (Option.some.inj hp')
    obtain ⟨happroved, hprovided⟩ := hall _ (p.mem_mintKeys x) m hook hm hhook
    rw [Processor.map_key_remaining_shareFlags] at hprovided
    exact ⟨⟨k, r, hl.sound.hooks k r hr, hr, happroved⟩, hprovided, hmoved⟩
  refine ⟨hsuccess, fun hnot data hdata => ?_⟩
  cases hexecute : l.execute data refs with
  | error r => exact ⟨⟨r, rfl⟩, by rw [submit, hexecute]⟩
  | ok result =>
    obtain ⟨j, hj, hdoes⟩ := execute_eq_ok.1 hexecute
    obtain rfl := Except.ok.inj (hdata.symm.trans hj)
    exact absurd (hsuccess _ hdoes).1 hnot

namespace SoundLedger

/-- The accounts with which the user, who owns the config, collects the protocol's share. -/
def collecting : List AccountRef :=
  [.signing user, .writable pool, .readOnly config, .writable vaults.zero, .writable vaults.one,
    .readOnly mints.zero, .readOnly mints.one, .writable accounts.zero, .writable accounts.one,
    .readOnly hooks, .readOnly tokenProgram, .readOnly extendedTokenProgram, .readOnly hook]

end SoundLedger

open SoundLedger in
/-- Fees are collected in tokens of a mint with a hook. -/
theorem no_unapproved_hook_runs_on_collection : ∃ e : Execution,
    ledger.Attained ∧ ledger.get? pool = some (.pool thePool) ∧
    ledger.get? (thePool.mints.get .one) = some (.mint hookedMint) ∧
    hookedMint.hookProgram = some hook ∧
    ledger.Does (.collectFees .protocol ⟨10, 20⟩) collecting e ∧
    (∃ c ∈ e.trace.calls, c.call.moves? = some mints.one) ∧
    ledger.Approves hook ∧ hook ∈ (collecting.drop 12).map (·.key) ∧
    e.trace.MovesOnly thePool.mintKeys := by
  have hrun : (Processor.runInstruction (.collectFees .protocol ⟨10, 20⟩) collecting
      ⟨ledger, Trace.empty⟩).toOption.any
        (·.2.trace.calls.any (·.call.moves? = some mints.one)) = true := by decide +kernel
  obtain ⟨⟨⟨⟩, e⟩, hdoes, hmoves⟩ := exists_ok_of_any hrun
  obtain ⟨c, hc, hmoved⟩ := List.any_eq_true.1 hmoves
  have hplace : (Instruction.collectFees .protocol ⟨10, 20⟩).poolPlace? = some 1 := rfl
  exact ⟨e, attained, rfl, rfl, rfl, hdoes, ⟨c, hc, of_decide_eq_true hmoved⟩,
    (no_unapproved_hook_runs attained hplace rfl rfl (x := .one) rfl rfl).1 e hdoes⟩

end Clmm
