import Clmm.Proofs.PoolInstructions
import Clmm.Proofs.PositionInstructions
import Mathlib.Logic.Relation

/-!
# Clmm.Proofs.LedgerHistory

**What happens on the ledger from its beginnings on** (`Ledger.Step`). The program runs instructions, for
signers of whom none is one of its own addresses: these are not on the curve (`IsOwnAddress.offCurve`), so
nobody has a signing key for them. Beside it, the token programs run for everybody else, and what the program
has no hand in changes in any way.

Two things come of it. Once the pools, positions and registries are where they belong, with the vaults and
mints that belong to them (`Ledger.Sound`), they stay so; in the beginning, when the program owns nothing,
there is nothing to put in its place. And from one ledger to a later one what the program has a hand in
goes on (`Ledger.Continues`): a position is there because it was there before, or its mint is new, and
mints of positions stay for ever.
-/

namespace Clmm

open Ledger

/-! ### Addresses -/

/-- The key is an address of the program. -/
def IsOwnAddress (k : Key) : Prop :=
  ∃ seeds bump, Address.withBump seeds bump programId = some k

namespace Address

variable {seeds : List Bytes} {bump : Nat} {program k : Key}

theorem withBump_eq_some : withBump seeds bump program = some k ↔
    Edwards.isPoint (candidate seeds bump program) = false ∧ candidate seeds bump program = k := by
  simp only [withBump, Option.ite_none_left_eq_some, Option.some.injEq, Bool.not_eq_true]

theorem withBump_of_search {n : Nat} (h : search seeds program n = some ⟨k, bump⟩) :
    withBump seeds bump program = some k := by
  induction n with
  | zero => cases h
  | succ n ih =>
    unfold search at h
    dsimp only at h
    split at h
    next => exact ih h
    next hoff =>
      obtain ⟨hk, rfl⟩ := Located.mk.inj (Option.some.inj h)
      exact withBump_eq_some.2 ⟨eq_false_of_ne_true hoff, hk⟩

/-- A derived address is that of its bump. -/
theorem withBump_of_find (h : find seeds program = .ok ⟨k, bump⟩) :
    withBump seeds bump program = some k := by
  -- applied to arguments, the definition must not be opened: that would start the search
  obtain ⟨f, hf⟩ : ∃ f, find = f := ⟨find, rfl⟩
  rw [hf] at h
  delta find at hf
  subst hf
  dsimp only at h
  split at h
  next found hfound =>
    rw [Except.ok.inj h] at hfound
    exact withBump_of_search hfound
  next => cases h

end Address

/-- An address of the program is not on the curve, so there is no signing key for it. -/
theorem IsOwnAddress.offCurve {k : Key} (h : IsOwnAddress k) : Edwards.isPoint k = false := by
  obtain ⟨seeds, bump, h⟩ := h
  obtain ⟨hoff, rfl⟩ := Address.withBump_eq_some.1 h
  exact hoff

/-- The key is where the account lives. -/
def Site.IsAt (s : Site) (k : Key) : Prop := ∃ bump, s.locate = .ok ⟨k, bump⟩

theorem Site.IsAt.own {s : Site} {k : Key} (h : s.IsAt k) : IsOwnAddress k := by
  obtain ⟨bump, h⟩ := h
  exact ⟨s.seeds, bump, Address.withBump_of_find h⟩

/-! ### What is where -/

/-- The account is of one of the kinds that the program alone creates. -/
def Account.isOwned : Account → Bool
  | .wallet | .mint _ | .token _ => false
  | _ => true

/-- The program has the account in its hands: it owns it, or it alone can spend its tokens or issue tokens
of it. -/
def Account.IsBound : Account → Prop
  | .token t => IsOwnAddress t.holder
  | .mint m => m.hook = none ∧ ∃ a, m.authority = some a ∧ IsOwnAddress a
  | a => a.isOwned = true

/-- Only the program can issue tokens of the mint, and there is one token of it at most. -/
structure Mint.IsNft (m : Mint) : Prop where
  supply : m.supply ≤ 1
  plain : m.hook = none
  issuer : ∃ a, m.authority = some a ∧ IsOwnAddress a

namespace Ledger

variable {l l' l'' : Ledger} {k j : Key}

/-- The mint of a position may lie at the key. -/
def IsNft (l : Ledger) (k : Key) : Prop := ∃ m, l.get? k = some (.mint m) ∧ m.IsNft

/-- The pool at the key has vaults of its own, each for one of its mints. -/
structure PoolInPlace (l : Ledger) (k : Key) (p : Pool) : Prop where
  own : IsOwnAddress k
  vaults : ∀ x, ∃ t, l.get? (p.vaults.get x) = some (.token t) ∧ t.mint = p.mints.get x ∧ t.holder = k

/-- What the program has created is where it belongs. -/
structure Sound (l : Ledger) : Prop where
  hooks : ∀ k r, l.get? k = some (.hooks r) → Site.hooks.IsAt k
  pools : ∀ k p, l.get? k = some (.pool p) → l.PoolInPlace k p
  positions : ∀ k p, l.get? k = some (.position p) → (Site.position p.nft).IsAt k ∧ l.IsNft p.nft

/-- How a later ledger follows from an earlier one: what is there was there before or has been put into
its place since, and what the program holds or issues stays. -/
structure Continues (l l' : Ledger) : Prop where
  hooks : ∀ k r', l'.get? k = some (.hooks r') →
    (∃ r, l.get? k = some (.hooks r)) ∨ Site.hooks.IsAt k
  pools : ∀ k p', l'.get? k = some (.pool p') →
    (∃ p, l.get? k = some (.pool p) ∧ p'.mints = p.mints ∧ p'.vaults = p.vaults) ∨ l'.PoolInPlace k p'
  positions : ∀ k q, l'.get? k = some (.position q) →
    (∃ p, l.get? k = some (.position p) ∧ q.nft = p.nft) ∨
      (Site.position q.nft).IsAt k ∧ l'.IsNft q.nft ∧ ¬ l.IsNft q.nft
  held : ∀ k t, l.get? k = some (.token t) → IsOwnAddress t.holder →
    ∃ t', l'.get? k = some (.token t') ∧ t'.mint = t.mint ∧ t'.holder = t.holder
  nfts : ∀ k, l.IsNft k → l'.IsNft k

/-- A pool stays in its place. -/
theorem PoolInPlace.continues {p p' : Pool} (h : l.PoolInPlace k p) (hl : Continues l l')
    (hmints : p'.mints = p.mints) (hvaults : p'.vaults = p.vaults) : l'.PoolInPlace k p' := by
  refine ⟨h.own, fun x => ?_⟩
  obtain ⟨t, ht, hmint, hholder⟩ := h.vaults x
  obtain ⟨t', ht', hmint', hholder'⟩ := hl.held _ t ht (hholder ▸ h.own)
  rw [hmints, hvaults]
  exact ⟨t', ht', hmint'.trans hmint, hholder'.trans hholder⟩

/-- Whatever comes after a ledger where all is in its place, all is in its place again. -/
theorem Sound.continues (h : l.Sound) (hl : Continues l l') : l'.Sound := by
  refine ⟨fun k r' hr' => ?_, fun k p' hp' => ?_, fun k q hq => ?_⟩
  · rcases hl.hooks k r' hr' with ⟨r, hr⟩ | hat
    · exact h.hooks k r hr
    · exact hat
  · rcases hl.pools k p' hp' with ⟨p, hp, hmints, hvaults⟩ | hplace
    · exact (h.pools k p hp).continues hl hmints hvaults
    · exact hplace
  · rcases hl.positions k q hq with ⟨p, hp, hnft⟩ | ⟨hat, hnft, -⟩
    · obtain ⟨hat, hp⟩ := h.positions k p hp
      rw [hnft]
      exact ⟨hat, hl.nfts _ hp⟩
    · exact ⟨hat, hnft⟩

namespace Continues

theorem trans (h : Continues l l') (h' : Continues l' l'') : Continues l l'' where
  hooks k r'' hr'' := by
    rcases h'.hooks k r'' hr'' with ⟨r', hr'⟩ | hat
    · exact h.hooks k r' hr'
    · exact .inr hat
  pools k p'' hp'' := by
    rcases h'.pools k p'' hp'' with ⟨p', hp', hmints', hvaults'⟩ | hplace
    · rcases h.pools k p' hp' with ⟨p, hp, hmints, hvaults⟩ | hplace
      · exact .inl ⟨p, hp, hmints'.trans hmints, hvaults'.trans hvaults⟩
      · exact .inr (hplace.continues h' hmints' hvaults')
    · exact .inr hplace
  positions k q hq := by
    rcases h'.positions k q hq with ⟨p', hp', hnft'⟩ | ⟨hat, hnft, hnew⟩
    · rcases h.positions k p' hp' with ⟨p, hp, hnft⟩ | ⟨hat, hnft, hnew⟩
      · exact .inl ⟨p, hp, hnft'.trans hnft⟩
      · rw [← hnft'] at hat hnft hnew
        exact .inr ⟨hat, h'.nfts _ hnft, hnew⟩
    · exact .inr ⟨hat, hnft, fun hold => hnew (h.nfts _ hold)⟩
  held k t ht hown := by
    obtain ⟨t', ht', hmint, hholder⟩ := h.held k t ht hown
    obtain ⟨t'', ht'', hmint', hholder'⟩ := h'.held k t' ht' (hholder.symm ▸ hown)
    exact ⟨t'', ht'', hmint'.trans hmint, hholder'.trans hholder⟩
  nfts k hk := h'.nfts k (h.nfts k hk)

/-- Accounts are created: it is enough that each is in its place. -/
theorem of_creates {news : List (Key × Account)} (h : Creates l news l')
    (hhooks : ∀ k r, (k, .hooks r) ∈ news → Site.hooks.IsAt k)
    (hpools : ∀ k p, (k, .pool p) ∈ news → l'.PoolInPlace k p)
    (hpositions : ∀ k q, (k, .position q) ∈ news →
      (Site.position q.nft).IsAt k ∧ l'.IsNft q.nft ∧ ¬ l.IsNft q.nft) : Continues l l' where
  hooks k r' hr' := by
    rcases h.new_or_old k with ⟨b, hmem, hnew⟩ | hold
    · rw [outline_of_get? hr'] at hnew
      obtain ⟨r, rfl⟩ := Account.eq_hooks_of_outline (Option.some.inj hnew).symm
      exact .inr (hhooks k r hmem)
    · exact .inl (hooks_of_outline hold.symm hr')
  pools k p' hp' := by
    rcases h.new_or_old k with ⟨b, hmem, hnew⟩ | hold
    · rw [outline_of_get? hp'] at hnew
      obtain ⟨p, rfl, hmints, hvaults⟩ := Account.eq_pool_of_outline (Option.some.inj hnew).symm
      have hplace := hpools k p hmem
      refine .inr ⟨hplace.own, ?_⟩
      rw [← hmints, ← hvaults]
      exact hplace.vaults
    · obtain ⟨p, hp, hmints, hvaults⟩ := pool_of_outline hold.symm hp'
      exact .inl ⟨p, hp, hmints.symm, hvaults.symm⟩
  positions k q hq := by
    rcases h.new_or_old k with ⟨b, hmem, hnew⟩ | hold
    · rw [outline_of_get? hq] at hnew
      obtain rfl := Account.eq_position_of_outline (Option.some.inj hnew).symm
      exact .inr (hpositions k q hmem)
    · exact .inl ⟨q, position_of_outline hold.symm hq, rfl⟩
  held k t ht _ := token_of_outline (h.outline_of_not_vacant (not_vacant ht (by simp))) ht
  nfts k := by
    rintro ⟨m, hm, hnft⟩
    exact ⟨m, mint_of_outline (h.outline_of_not_vacant (not_vacant hm (by simp))) hm, hnft⟩

theorem of_agree (h : Agree l l') : Continues l l' :=
  of_creates (Creates.nil_iff.2 h) (by simp) (by simp) (by simp)

end Continues

/-! ### What others do -/

/-- What others than the program can make of what is at a key. They do as they like with what the program
has no hand in, which is more than any token program lets them. Of the rest they change balances and lower
supplies: tokens are paid to the program's addresses, and the holder of a token of a position may destroy
it. -/
inductive Foreign : Option Account → Option Account → Prop
  | free {before after : Option Account} (hbefore : ∀ a ∈ before, ¬ a.IsBound)
      (hafter : ∀ a ∈ after, a.isOwned = false) : Foreign before after
  | balance (t : TokenAccount) (amount : Nat) :
      Foreign (some (.token t)) (some (.token { t with amount }))
  | supply (m : Mint) {supply : Nat} (h : supply ≤ m.supply) :
      Foreign (some (.mint m)) (some (.mint { m with supply }))

theorem Foreign.of_some {a : Account} {after : Option Account} (ha : ¬ a.IsBound)
    (hafter : ∀ b ∈ after, b.isOwned = false) : Foreign (some a) after :=
  .free (by simpa using ha) hafter

theorem Foreign.isNft {m : Mint} {after : Option Account} (h : Foreign (some (.mint m)) after)
    (hm : m.IsNft) : ∃ m', after = some (.mint m') ∧ m'.IsNft := by
  cases h with
  | free hbefore => exact absurd ⟨hm.plain, hm.issuer⟩ (hbefore _ rfl)
  | supply _ hle => exact ⟨_, rfl, hle.trans hm.supply, hm.plain, hm.issuer⟩

theorem Foreign.held {t : TokenAccount} {after : Option Account} (h : Foreign (some (.token t)) after)
    (ht : IsOwnAddress t.holder) :
    ∃ t', after = some (.token t') ∧ t'.mint = t.mint ∧ t'.holder = t.holder := by
  cases h with
  | free hbefore => exact absurd ht (hbefore _ rfl)
  | balance => exact ⟨_, rfl, rfl, rfl⟩

/-- What the program owns is not the work of others. -/
theorem Foreign.isOwned_eq_false {before : Option Account} {a : Account}
    (h : Foreign before (some a)) : a.isOwned = false := by
  cases h with
  | free _ hafter => exact hafter _ rfl
  | balance => rfl
  | supply => rfl

namespace Continues

/-- Only one account changes, and what it becomes is neither a pool nor a registry. -/
theorem of_one (hrest : ∀ j, j ≠ k → l'.get? j = l.get? j)
    (hhooks : ∀ r, l'.get? k ≠ some (.hooks r)) (hpool : ∀ p, l'.get? k ≠ some (.pool p))
    (hposition : ∀ q, l'.get? k = some (.position q) →
      ∃ p, l.get? k = some (.position p) ∧ q.nft = p.nft)
    (hheld : ∀ t, l.get? k = some (.token t) → IsOwnAddress t.holder →
      ∃ t', l'.get? k = some (.token t') ∧ t'.mint = t.mint ∧ t'.holder = t.holder)
    (hnft : l.IsNft k → l'.IsNft k) : Continues l l' where
  hooks j r hr := by
    obtain rfl | hj := eq_or_ne j k
    · exact absurd hr (hhooks r)
    · exact .inl ⟨r, hrest j hj ▸ hr⟩
  pools j p hp := by
    obtain rfl | hj := eq_or_ne j k
    · exact absurd hp (hpool p)
    · exact .inl ⟨p, hrest j hj ▸ hp, rfl, rfl⟩
  positions j q hq := by
    obtain rfl | hj := eq_or_ne j k
    · exact .inl (hposition q hq)
    · exact .inl ⟨q, hrest j hj ▸ hq, rfl⟩
  held j t ht hown := by
    obtain rfl | hj := eq_or_ne j k
    · exact hheld t ht hown
    · exact ⟨t, (hrest j hj).trans ht, rfl, rfl⟩
  nfts j hj' := by
    obtain rfl | hj := eq_or_ne j k
    · exact hnft hj'
    · obtain ⟨m, hm, hissued⟩ := hj'
      exact ⟨m, (hrest j hj).trans hm, hissued⟩

/-- What others do goes on with all that the program has a hand in. -/
theorem of_foreign (hk : Foreign (l.get? k) (l'.get? k)) (hrest : ∀ j, j ≠ k → l'.get? j = l.get? j) :
    Continues l l' := by
  refine of_one hrest (fun r hr => ?_) (fun p hp => ?_) (fun q hq => ?_) (fun t ht => ?_) ?_
  · cases (hr ▸ hk : Foreign _ _).isOwned_eq_false
  · cases (hp ▸ hk : Foreign _ _).isOwned_eq_false
  · cases (hq ▸ hk : Foreign _ _).isOwned_eq_false
  · exact (ht ▸ hk).held
  · rintro ⟨m, hm, hnft⟩
    exact (hm ▸ hk).isNft hnft

theorem put {a : Account} (h : Foreign (l.get? k) (some a)) : Continues l (l.put k a) :=
  of_foreign ((get?_put_self l k a).symm ▸ h) fun _ hj => get?_put_ne l hj a

/-- A position is written anew, with the same mint, or removed. -/
theorem of_position {p : Position} (hp : l.get? k = some (.position p))
    (hrest : ∀ j, j ≠ k → l'.get? j = l.get? j)
    (hnew : ∀ a, l'.get? k = some a → ∃ q, a = .position q ∧ q.nft = p.nft) : Continues l l' := by
  refine of_one hrest (fun r hr => ?_) (fun p' hp' => ?_) (fun q hq => ?_) (fun t ht => ?_) ?_
  · obtain ⟨q, hq, -⟩ := hnew _ hr
    cases hq
  · obtain ⟨q, hq, -⟩ := hnew _ hp'
    cases hq
  · obtain ⟨q', hq', hnft⟩ := hnew _ hq
    obtain rfl := Account.position.inj hq'
    exact ⟨p, hp, hnft⟩
  · cases hp.symm.trans ht
  · rintro ⟨m, hm, -⟩
    cases hp.symm.trans hm

theorem remove (h : Foreign (l.get? k) none) : Continues l (l.remove k) := by
  refine of_foreign (k := k) ?_ fun j hj => ?_
  · rwa [get?_remove, if_pos rfl]
  · rw [get?_remove, if_neg hj]

end Continues

end Ledger

/-- Who has to agree to a call of a token program. -/
def TokenCall.authority : TokenCall → Key
  | transfer _ _ _ authority .. | mintTo _ _ authority _ | burn _ _ authority _
  | closeAccount _ _ authority => authority

namespace TokenProgram

variable {l l' : Ledger} {program : Key} {call : TokenCall}

/-- A token program that is called by others does nothing to what the program has in its hands. -/
theorem continues_of_run (h : run program call l = .ok l') (hcall : ¬ IsOwnAddress call.authority) :
    Continues l l' := by
  cases call with
  | transfer => exact .of_agree (agree_of_transfer h)
  | mintTo mint destination authority amount =>
    obtain ⟨dst, m, hdst, hm, hauthority, rfl⟩ := issue_eq_ok h
    have hne : mint ≠ destination := by
      rintro rfl
      simp [hdst] at hm
    refine .trans (.put (hdst ▸ .balance dst _)) (.put ?_)
    rw [get?_put_ne _ hne, hm]
    refine .of_some ?_ (by simp [Account.isOwned])
    rintro ⟨-, a, ha, hown⟩
    rw [hauthority] at ha
    exact hcall (Option.some.inj ha ▸ hown)
  | burn account mint authority amount =>
    obtain ⟨src, m, hsrc, hm, hholder, rfl⟩ := burn_eq_ok h
    have hne : mint ≠ account := by
      rintro rfl
      simp [hsrc] at hm
    refine .trans (.put (hsrc ▸ .balance src _)) (.put ?_)
    rw [get?_put_ne _ hne, hm]
    exact .supply m (Nat.sub_le _ _)
  | closeAccount account destination authority =>
    obtain ⟨src, l₁, rfl, hl₁, hsrc, rfl⟩ := close_eq_ok h
    have hwallet : Continues l l₁ := by
      rcases hl₁ with rfl | ⟨hnone, rfl⟩
      · exact .of_agree (.refl l₁)
      · exact .put (hnone ▸ .free (by simp) (by simp [Account.isOwned]))
    exact hwallet.trans (.remove (hsrc ▸ .of_some hcall (by simp)))

/-- A token program does nothing to a position. -/
theorem get?_position_of_run (h : run program call l = .ok l') {k : Key} {p : Position}
    (hk : l.get? k = some (.position p)) : l'.get? k = some (.position p) := by
  cases call with
  | transfer => exact position_of_outline (agree_of_transfer h k) hk
  | mintTo mint destination authority amount =>
    obtain ⟨dst, m, hdst, hm, -, rfl⟩ := issue_eq_ok h
    rw [get?_put, get?_put, if_neg, if_neg, hk] <;> rintro rfl <;> simp_all
  | burn account mint authority amount =>
    obtain ⟨src, m, hsrc, hm, -, rfl⟩ := burn_eq_ok h
    rw [get?_put, get?_put, if_neg, if_neg, hk] <;> rintro rfl <;> simp_all
  | closeAccount account destination authority =>
    obtain ⟨src, l₁, -, hl₁, hsrc, rfl⟩ := close_eq_ok h
    have hk₁ : l₁.get? k = some (.position p) := by
      rcases hl₁ with rfl | ⟨hnone, rfl⟩
      · exact hk
      · rw [get?_put, if_neg, hk]
        rintro rfl
        simp [hk] at hnone
    rw [get?_remove, if_neg, hk₁]
    rintro rfl
    simp [hk₁] at hsrc

end TokenProgram

/-! ### What the program does -/

variable {l l' : Ledger} {refs : List AccountRef}

/-- A new pool is in its place. -/
theorem PoolCreation.Accounts.Created.continues {a : Accounts} (h : a.Created l l') :
    Continues l l' := by
  obtain ⟨p, o, x, t₀, t₁, hcreates, ⟨hmint₀, hholder₀⟩, hmint₁, hholder₁⟩ := h.creates
  refine .of_creates hcreates (by simp) ?_ (by simp)
  intro k p' hmem
  obtain ⟨rfl, rfl⟩ : k = a.pool.key ∧ p' = p := by simpa using hmem
  refine ⟨Site.IsAt.own h.locate, fun x => ?_⟩
  cases x with
  | zero =>
    obtain ⟨t, ht, hmint, hholder⟩ :=
      get?_token_of_outline (hcreates.new (p'.vaults.zero, .token t₀) (by simp))
    exact ⟨t, ht, hmint.trans hmint₀, hholder.trans hholder₀⟩
  | one =>
    obtain ⟨t, ht, hmint, hholder⟩ :=
      get?_token_of_outline (hcreates.new (p'.vaults.one, .token t₁) (by simp))
    exact ⟨t, ht, hmint.trans hmint₁, hholder.trans hholder₁⟩

namespace PositionChange

/-- A new position comes with a new mint. -/
theorem OpenAccounts.Opened.continues {a : OpenAccounts} {e : Execution}
    (h : a.Opened l refs e) (hs : l.Sound) : Continues l e.ledger := by
  obtain ⟨m, t, q, bump, hcreates, ⟨hsupply, hplain, hissuer⟩, hnft, hlocate⟩ := h.creates
  refine .of_creates hcreates (by simp) (by simp) ?_
  intro k q' hmem
  obtain ⟨rfl, rfl⟩ : k = a.position.key ∧ q' = q := by simpa using hmem
  rw [hnft]
  refine ⟨⟨bump, hlocate⟩, ⟨m, get?_mint_of_outline (hcreates.new (a.nft.key, .mint m) (by simp)),
    hsupply.le, hplain, _, hissuer, (hs.pools _ _ h.pool).own⟩, ?_⟩
  rintro ⟨m', hm', -⟩
  exact not_vacant hm' (by simp) (hcreates.vacant (a.nft.key, .mint m) (by simp))

theorem ChangeAccounts.Changed.continues {a : ChangeAccounts} {e : Execution}
    (h : a.Changed l refs e) : Continues l e.ledger := by
  obtain ⟨q, hnft, hagree⟩ := h.changes
  have hwritten : Continues l (l.put a.position.key (.position q)) := by
    refine .of_position h.position (fun j hj => get?_put_ne l hj _) fun b hb => ?_
    rw [get?_put_self] at hb
    exact ⟨q, (Option.some.inj hb).symm, hnft⟩
  exact hwritten.trans (.of_agree hagree)

theorem CloseAccounts.Closed.continues {a : CloseAccounts} (h : a.Closed l refs l')
    (hsigners : ∀ ref ∈ refs, ref.isSigner = true → ¬ IsOwnAddress ref.key) : Continues l l' := by
  obtain ⟨program, l₁, l₂, hburn, hclose, rfl⟩ := h.closes
  have hholder : ¬ IsOwnAddress a.holder.key := hsigners _ h.signer.1 h.signer.2
  have hposition := TokenProgram.get?_position_of_run hclose
    (TokenProgram.get?_position_of_run hburn h.position)
  refine (TokenProgram.continues_of_run hburn hholder).trans
    ((TokenProgram.continues_of_run hclose hholder).trans
      (.of_position hposition (fun j hj => ?_) fun b hb => ?_))
  · rw [get?_remove, if_neg hj]
  · simp [get?_remove] at hb

end PositionChange

namespace Processor

variable {e e' : Execution} {i : Instruction}

theorem exists_of_mem_shareFlags {ref : AccountRef} (h : ref ∈ shareFlags refs)
    (hsigner : ref.isSigner = true) : ∃ r ∈ refs, r.isSigner = true ∧ r.key = ref.key := by
  obtain ⟨r, -, rfl⟩ := List.mem_map.1 h
  obtain ⟨s, hs, hsigns⟩ := List.any_eq_true.1 hsigner
  obtain ⟨hmem, hkey⟩ := List.mem_filter.1 hs
  exact ⟨s, hmem, hsigns, of_decide_eq_true hkey⟩

/-- What an instruction does, in outline: it creates accounts and puts them into their places, or the holder
of a position changes or closes it. -/
inductive Effect (l : Ledger) (refs : List AccountRef) : Ledger → Prop
  | creates {news : List (Key × Account)} {l' : Ledger} (h : Creates l news l')
      (hplace : l.Sound → Continues l l') : Effect l refs l'
  | changes {a : PositionChange.ChangeAccounts} {e : Execution} (h : a.Changed l refs e) :
      Effect l refs e.ledger
  | closes {a : PositionChange.CloseAccounts} {l' : Ledger} (h : a.Closed l refs l') :
      Effect l refs l'

theorem Effect.of_agree (h : Agree l l') : Effect l refs l' :=
  .creates (Creates.nil_iff.2 h) fun _ => .of_agree h

/-- One case for each instruction. -/
theorem effect_of_dispatch {u : Unit} (h : dispatch refs i e = .ok (u, e'))
    (hcalls : e.trace.calls = []) : Effect e.ledger refs e'.ledger := by
  cases i with
  | createConfig index params =>
    obtain ⟨k, config, hcreates⟩ := Governance.createConfig_eq_ok h hcalls
    exact .creates hcreates fun _ => .of_creates hcreates (by simp) (by simp) (by simp)
  | createHooks =>
    obtain ⟨k, registry, bump, hlocate, hcreates⟩ := Governance.createHooks_eq_ok h hcalls
    refine .creates hcreates fun _ => .of_creates hcreates ?_ (by simp) (by simp)
    intro j r hmem
    obtain ⟨rfl, -⟩ : j = k ∧ r = registry := by simpa using hmem
    exact ⟨bump, hlocate⟩
  | registerHook program => exact .of_agree (Governance.registerHook_eq_ok h hcalls)
  | approveHook program => exact .of_agree (Governance.approveHook_eq_ok h hcalls)
  | createPool sqrtPrice openTime =>
    obtain ⟨a, ha⟩ := PoolCreation.createPool_eq_ok h hcalls
    obtain ⟨_, _, _, _, _, hcreates, -⟩ := ha.creates
    exact .creates hcreates fun _ => ha.continues
  | createTickArray start =>
    obtain ⟨k, array, hcreates⟩ := PoolCreation.createTickArray_eq_ok h hcalls
    exact .creates hcreates fun _ => .of_creates hcreates (by simp) (by simp) (by simp)
  | openPosition range deposit =>
    obtain ⟨a, ha⟩ := PositionChange.openPosition_eq_ok h hcalls
    obtain ⟨_, _, _, _, hcreates, -⟩ := ha.creates
    exact .creates hcreates ha.continues
  | closePosition =>
    obtain ⟨a, ha⟩ := PositionChange.closePosition_eq_ok h
    exact .closes ha
  | increaseLiquidity deposit =>
    obtain ⟨a, ha⟩ := PositionChange.increaseLiquidity_eq_ok h hcalls
    exact .changes ha
  | decreaseLiquidity liquidity minima =>
    obtain ⟨a, ha⟩ := PositionChange.decreaseLiquidity_eq_ok h hcalls
    exact .changes ha
  | swap terms =>
    obtain ⟨a, ha⟩ := Trading.swap_eq_ok h hcalls
    exact .of_agree ha.agree
  | collectFees share requested =>
    obtain ⟨a, ha⟩ := FeeCollection.collectFees_eq_ok h hcalls
    exact .of_agree ha.agree

theorem Effect.continues (h : Effect l refs l') (hs : l.Sound)
    (hsigners : ∀ ref ∈ refs, ref.isSigner = true → ¬ IsOwnAddress ref.key) : Continues l l' := by
  cases h with
  | creates _ hplace => exact hplace hs
  | changes ha => exact ha.continues
  | closes ha => exact ha.continues hsigners

end Processor

namespace Ledger

variable {e : Execution} {i : Instruction}

/-- The instruction succeeds on the ledger, and this is what it leaves. -/
def Does (l : Ledger) (i : Instruction) (refs : List AccountRef) (e : Execution) : Prop :=
  Processor.runInstruction i refs ⟨l, Trace.empty⟩ = .ok ((), e)

/-- An instruction logs its name and does what is its own. -/
theorem Does.dispatch (h : l.Does i refs e) : ∃ e₀, e₀.ledger = l ∧ e₀.trace.calls = [] ∧
    Processor.dispatch (Processor.shareFlags refs) i e₀ = .ok ((), e) := by
  obtain ⟨_, e₀, hlog, h⟩ := Run.bind_eq_ok.1 h
  obtain rfl := Run.log_eq_ok.1 hlog
  exact ⟨_, rfl, rfl, h⟩

/-- What is sent to the program succeeds exactly if it reads as an instruction that succeeds. -/
theorem execute_eq_ok {data : Bytes} {t : Trace} : l.execute data refs = .ok (l', t) ↔
    ∃ i, Instruction.ofBytes data = .ok i ∧ l.Does i refs ⟨l', t⟩ := by
  simp only [execute, Does, Verdict.bind_eq_ok, Verdict.pure_eq_ok, Prod.mk.injEq]
  constructor
  · rintro ⟨i, hi, ⟨⟨⟩, e⟩, hrun, rfl, rfl⟩
    exact ⟨i, hi, hrun⟩
  · rintro ⟨i, hi, hrun⟩
    exact ⟨i, hi, _, hrun, rfl, rfl⟩

theorem Does.continues (h : l.Does i refs e) (hs : l.Sound)
    (hsigners : ∀ ref ∈ refs, ref.isSigner = true → ¬ IsOwnAddress ref.key) :
    Continues l e.ledger := by
  obtain ⟨e₀, rfl, hcalls, hrun⟩ := h.dispatch
  refine (Processor.effect_of_dispatch hrun hcalls).continues hs fun ref href hsigner => ?_
  obtain ⟨r, hr, hsigns, hkey⟩ := Processor.exists_of_mem_shareFlags href hsigner
  exact hkey ▸ hsigners r hr hsigns

/-! ### Histories -/

/-- What happens on the ledger, one thing at a time. -/
inductive Step : Ledger → Ledger → Prop
  /-- The program runs an instruction. Nobody signs with one of its own addresses: a signing key is for a
  point of the curve, and none of them is one (`IsOwnAddress.offCurve`). -/
  | instruction {l : Ledger} {i : Instruction} {refs : List AccountRef} {e : Execution}
      (h : l.Does i refs e)
      (hsigners : ∀ ref ∈ refs, ref.isSigner = true → ¬ IsOwnAddress ref.key) : Step l e.ledger
  /-- A token program runs for somebody else: tokens are handed on, issued or destroyed. -/
  | tokens {l l' : Ledger} {program : Key} {call : TokenCall}
      (h : TokenProgram.run program call l = .ok l') (hcall : ¬ IsOwnAddress call.authority) :
      Step l l'
  /-- Others change what is at a key. -/
  | others {l l' : Ledger} {k : Key} (h : Foreign (l.get? k) (l'.get? k))
      (hrest : ∀ j, j ≠ k → l'.get? j = l.get? j) : Step l l'
  /-- Time passes. -/
  | time (l : Ledger) (time : Int) : Step l (l.setTime time)

/-- The second ledger comes after the first, some time. -/
abbrev Leads : Ledger → Ledger → Prop := Relation.ReflTransGen Step

/-- The ledger comes after one where all was in its place, for one after a ledger on which the program owned
nothing (`attained_of_fresh`). -/
def Attained (l : Ledger) : Prop := ∃ s : Ledger, s.Sound ∧ s.Leads l

/-- One step continues the ledger. -/
theorem Step.continues (h : l.Step l') (hs : l.Sound) : Continues l l' := by
  cases h with
  | instruction hdoes hsigners => exact hdoes.continues hs hsigners
  | tokens hrun hcall => exact TokenProgram.continues_of_run hrun hcall
  | others hk hrest => exact .of_foreign hk hrest
  | time => exact .of_agree fun _ => rfl

/-- So do any number of them, and all stays in its place. -/
theorem Leads.continues (h : l.Leads l') (hs : l.Sound) : Continues l l' ∧ l'.Sound := by
  induction h with
  | refl => exact ⟨.of_agree (.refl l), hs⟩
  | tail _ hstep ih =>
    obtain ⟨hcontinues, hs'⟩ := ih
    have hnext := hstep.continues hs'
    exact ⟨hcontinues.trans hnext, hs'.continues hnext⟩

theorem Attained.sound (h : l.Attained) : l.Sound := by
  obtain ⟨s, hs, hleads⟩ := h
  exact (hleads.continues hs).2

/-- In particular, whatever comes after a ledger on which the program owns nothing is attained. -/
theorem attained_of_fresh {s : Ledger} (hs : ∀ k a, s.get? k = some a → a.isOwned = false)
    (h : s.Leads l) : l.Attained := by
  refine ⟨s, ⟨fun k r hr => ?_, fun k p hp => ?_, fun k p hp => ?_⟩, h⟩
  · cases hs k _ hr
  · cases hs k _ hp
  · cases hs k _ hp

end Ledger

/-! ### A sound ledger

with a pool, of which the second mint has an approved hook program, and a position that is empty. -/

namespace SoundLedger

def user : Key := 0x02

def config : Key := 0x1f

def mints : Pair Key := ⟨0x20, 0x2c⟩

def vaults : Pair Key := ⟨0x21, 0x2d⟩

/-- The user's accounts of the two tokens. -/
def accounts : Pair Key := ⟨0x30, 0x31⟩

def hook : Key := 0x50

def hookedMint : Mint := ⟨extendedTokenProgram, 1000000, 6, none, some hook⟩

/-- Where the registry lives. -/
def hooks : Key := 0x22824c8178fd702d225ce588ffa70de38bd804a44d7824ca80f2f91b9fb34bed

/-- An address of the program, without seeds. -/
def pool : Key := 0xe76f64860b3b98dc87f9e8a7ebeb2e8052a3a6fb36e4b69f911df02527078366

def thePool : Pool := { Pool.zeroed with config, mints, vaults, protocolFees := ⟨10, 20⟩ }

def nft : Key := 0x11

/-- The user's account of the position's token. -/
def nftAccount : Key := 0x12

/-- Where the position lives. -/
def position : Key := 0xa9f8bf496b5617770d9d231568ef256e7a2ca9338f5be922ea14717cff18e67a

def thePosition : Position := Position.zeroed.setUp 255 nft pool 0 60

def ledger : Ledger where
  accounts := [
    (user, .wallet),
    (config, .config { FeeConfig.zeroed with owner := user }),
    (mints.zero, .mint ⟨tokenProgram, 1000000, 6, none, none⟩),
    (mints.one, .mint hookedMint),
    (accounts.zero, .token ⟨tokenProgram, mints.zero, user, 0, .none⟩),
    (accounts.one, .token ⟨extendedTokenProgram, mints.one, user, 0, .transferHook⟩),
    (hooks, .hooks ⟨adminKey, 254, [⟨hook, .approved⟩]⟩),
    (pool, .pool thePool),
    (vaults.zero, .token ⟨tokenProgram, mints.zero, pool, 1000, .none⟩),
    (vaults.one, .token ⟨extendedTokenProgram, mints.one, pool, 1000, .transferHook⟩),
    (nft, .mint ⟨tokenProgram, 1, 0, some pool, none⟩),
    (nftAccount, .token ⟨tokenProgram, nft, user, 1, .none⟩),
    (position, .position thePosition)]
  time := 0

theorem isAt_hooks : Site.hooks.IsAt hooks := by
  have h : Site.hooks.locate.toOption.any (· = ⟨hooks, 254⟩) = true := by decide +kernel
  obtain ⟨located, hlocated, hkey⟩ := exists_ok_of_any h
  exact ⟨254, by rw [hlocated, of_decide_eq_true hkey]⟩

theorem isAt_position : (Site.position nft).IsAt position := by
  have h : (Site.position nft).locate.toOption.any (· = ⟨position, 255⟩) = true := by decide +kernel
  obtain ⟨located, hlocated, hkey⟩ := exists_ok_of_any h
  exact ⟨255, by rw [hlocated, of_decide_eq_true hkey]⟩

theorem isOwnAddress_pool : IsOwnAddress pool := ⟨[], 0, by decide +kernel⟩

theorem sound : ledger.Sound := by
  have hmem : ∀ {k a}, ledger.get? k = some a → (k, a) ∈ ledger.accounts := mem_of_get?
  refine ⟨fun k r hr => ?_, fun k p hp => ?_, fun k p hp => ?_⟩
  · obtain ⟨rfl, -⟩ : k = hooks ∧ _ := by simpa [ledger] using hmem hr
    exact isAt_hooks
  · obtain ⟨rfl, rfl⟩ : k = pool ∧ p = thePool := by simpa [ledger] using hmem hp
    refine ⟨isOwnAddress_pool, fun x => ?_⟩
    cases x with
    | zero => exact ⟨_, rfl, rfl, rfl⟩
    | one => exact ⟨_, rfl, rfl, rfl⟩
  · obtain ⟨rfl, rfl⟩ : k = position ∧ p = thePosition := by simpa [ledger] using hmem hp
    exact ⟨isAt_position, _, rfl, by decide, rfl, pool, rfl, isOwnAddress_pool⟩

theorem attained : ledger.Attained := ⟨ledger, sound, .refl⟩

end SoundLedger

end Clmm
