import Clmm.Proofs.LedgerRun

/-!
# Clmm.Proofs.LedgerOutline

**What an account is, apart from what trading changes.** Most of what instructions write leaves
accounts what they are: a pool stays the pool of its mints and vaults, an account with tokens stays
with its mint and its holder. The *outline* of an account is this lasting part. Balances, prices, the
contents of tick arrays, extensions, oracles and hook registries are left out of it; mints, positions
and fee configs are in it as a whole.

So a run is described by a ledger that its end agrees with in outline: a transfer leaves the outline as
it was, an account is created only where there was none, and what a call of a token program does beyond
that is said call by call.
-/

namespace Clmm

/-- What lasts of an account while its contents change. -/
def Account.outline : Account → Account
  | .token t => .token { t with amount := 0 }
  | .pool p => .pool { Pool.zeroed with mints := p.mints, vaults := p.vaults }
  | .tickArray _ => .tickArray .zeroed
  | .extension _ => .extension (.empty 0)
  | .oracle _ => .oracle (.fresh 0)
  | .hooks _ => .hooks (.empty 0 0)
  | a => a

namespace Account

variable {a : Account}

theorem eq_mint_of_outline {m : Mint} (h : a.outline = .mint m) : a = .mint m := by
  cases a <;> simp_all [outline]

theorem eq_position_of_outline {p : Position} (h : a.outline = .position p) : a = .position p := by
  cases a <;> simp_all [outline]

theorem eq_token_of_outline {t : TokenAccount} (h : a.outline = (token t).outline) :
    ∃ u, a = .token u ∧ u.mint = t.mint ∧ u.holder = t.holder := by
  cases a <;> simp_all [outline]

theorem eq_pool_of_outline {p : Pool} (h : a.outline = (pool p).outline) :
    ∃ q, a = .pool q ∧ q.mints = p.mints ∧ q.vaults = p.vaults := by
  cases a <;> simp_all [outline, Pool.zeroed]

theorem eq_hooks_of_outline {r : HookRegistry} (h : a.outline = (hooks r).outline) :
    ∃ r', a = .hooks r' := by
  cases a <;> simp_all [outline]

end Account

namespace Ledger

variable {l l' l'' : Ledger} {k j : Key}

theorem get?_put (l : Ledger) (k j : Key) (a : Account) :
    (l.put k a).get? j = if j = k then some a else l.get? j := by
  by_cases h : j = k
  · rw [if_pos h, h, get?_put_self]
  · rw [if_neg h, get?_put_ne l h]

theorem get?_remove (l : Ledger) (k j : Key) :
    (l.remove k).get? j = if j = k then none else l.get? j := by
  simp only [get?, remove, List.find?_filter]
  by_cases h : j = k
  · subst h
    simp [List.find?_eq_none]
  · rw [if_neg h]
    congr 2
    funext x
    by_cases hx : x.1 = j <;> simp_all

theorem mem_of_get? {a : Account} (h : l.get? k = some a) : (k, a) ∈ l.accounts := by
  obtain ⟨x, hx, rfl⟩ := Option.map_eq_some_iff.1 h
  have hkey : x.1 = k := by simpa using List.find?_some hx
  rw [← hkey]
  exact List.mem_of_find?_eq_some hx

/-- The outline of what is at a key. -/
def outline (l : Ledger) (k : Key) : Option Account := (l.get? k).map Account.outline

theorem outline_of_get? {a : Account} (h : l.get? k = some a) : l.outline k = some a.outline := by
  rw [outline, h, Option.map_some]

theorem outline_put (l : Ledger) (k j : Key) (a : Account) :
    (l.put k a).outline j = if j = k then some a.outline else l.outline j := by
  unfold outline
  rw [get?_put]
  split <;> rfl

/-! ### What an outline shows -/

theorem exists_of_outline {a : Account} (h : l.outline k = some a.outline) :
    ∃ b, l.get? k = some b ∧ b.outline = a.outline :=
  Option.map_eq_some_iff.1 h

theorem get?_mint_of_outline {m : Mint} (h : l.outline k = some (.mint m)) :
    l.get? k = some (.mint m) := by
  obtain ⟨a, ha, hout⟩ := exists_of_outline (a := .mint m) h
  rw [ha, Account.eq_mint_of_outline hout]

theorem get?_token_of_outline {t : TokenAccount} (h : l.outline k = some (Account.token t).outline) :
    ∃ u, l.get? k = some (.token u) ∧ u.mint = t.mint ∧ u.holder = t.holder := by
  obtain ⟨b, hb, hout⟩ := exists_of_outline h
  obtain ⟨u, rfl, hu⟩ := Account.eq_token_of_outline hout
  exact ⟨u, hb, hu⟩

theorem mint_of_outline (h : l'.outline k = l.outline k) {m : Mint}
    (hm : l.get? k = some (.mint m)) : l'.get? k = some (.mint m) :=
  get?_mint_of_outline (h.trans (outline_of_get? hm))

theorem position_of_outline (h : l'.outline k = l.outline k) {p : Position}
    (hp : l.get? k = some (.position p)) : l'.get? k = some (.position p) := by
  obtain ⟨b, hb, hout⟩ := exists_of_outline (h.trans (outline_of_get? hp))
  rw [hb, Account.eq_position_of_outline hout]

theorem token_of_outline (h : l'.outline k = l.outline k) {t : TokenAccount}
    (ht : l.get? k = some (.token t)) :
    ∃ u, l'.get? k = some (.token u) ∧ u.mint = t.mint ∧ u.holder = t.holder :=
  get?_token_of_outline (h.trans (outline_of_get? ht))

theorem pool_of_outline (h : l'.outline k = l.outline k) {p : Pool}
    (hp : l.get? k = some (.pool p)) :
    ∃ q, l'.get? k = some (.pool q) ∧ q.mints = p.mints ∧ q.vaults = p.vaults := by
  obtain ⟨b, hb, hout⟩ := exists_of_outline (h.trans (outline_of_get? hp))
  obtain ⟨q, rfl, hq⟩ := Account.eq_pool_of_outline hout
  exact ⟨q, hb, hq⟩

theorem hooks_of_outline (h : l'.outline k = l.outline k) {r : HookRegistry}
    (hr : l.get? k = some (.hooks r)) : ∃ r', l'.get? k = some (.hooks r') := by
  obtain ⟨b, hb, hout⟩ := exists_of_outline (h.trans (outline_of_get? hr))
  obtain ⟨r', rfl⟩ := Account.eq_hooks_of_outline hout
  exact ⟨r', hb⟩

/-! ### Ledgers that agree -/

/-- The outlines agree everywhere. -/
def Agree (l l' : Ledger) : Prop := ∀ k, l'.outline k = l.outline k

namespace Agree

theorem refl (l : Ledger) : Agree l l := fun _ => rfl

/-- Writing accounts of one outline on both sides keeps the agreement. -/
theorem put (h : Agree l l') {a b : Account} (hab : b.outline = a.outline) :
    Agree (l.put k a) (l'.put k b) := by
  intro j
  rw [outline_put, outline_put, hab, h j]

/-- Writing an account with the outline that was there keeps the agreement. -/
theorem put_same (h : Agree l l') {a : Account} (ha : l.outline k = some a.outline) :
    Agree l (l'.put k a) := by
  intro j
  rw [outline_put]
  split
  next heq => rw [heq, ha]
  next => exact h j

end Agree

/-! ### New accounts -/

/-- There is nothing at a key but perhaps a wallet, so that an account can be created there. -/
def Vacant (l : Ledger) (k : Key) : Prop := l.get? k = none ∨ l.get? k = some .wallet

/-- An outline shows whether anything is there. -/
theorem vacant_iff_outline : l.Vacant k ↔ l.outline k = none ∨ l.outline k = some .wallet := by
  unfold Vacant outline
  cases l.get? k with
  | none => simp
  | some a => cases a <;> simp [Account.outline]

theorem not_vacant_of_outline {a : Account} (h : l.outline k = some a.outline) (ha : a ≠ .wallet) :
    ¬ l.Vacant k := by
  rw [vacant_iff_outline, h]
  cases a <;> simp_all [Account.outline]

theorem not_vacant {a : Account} (h : l.get? k = some a) (ha : a ≠ .wallet) : ¬ l.Vacant k :=
  not_vacant_of_outline (outline_of_get? h) ha

/-- In outline, the second ledger has some accounts more than the first, each at a key of its own where
there was none. -/
structure Creates (l : Ledger) (news : List (Key × Account)) (l' : Ledger) : Prop where
  nodup : (news.map (·.1)).Nodup
  vacant : ∀ x ∈ news, l.Vacant x.1
  kind : ∀ x ∈ news, x.2 ≠ .wallet
  new : ∀ x ∈ news, l'.outline x.1 = some x.2.outline
  old : ∀ k, (∀ x ∈ news, x.1 ≠ k) → l'.outline k = l.outline k

namespace Creates

variable {news news' : List (Key × Account)} {a : Account}

/-- Nothing is created when the ledgers agree. -/
theorem nil_iff : Creates l [] l' ↔ Agree l l' :=
  ⟨fun h k => h.old k (by simp), fun h => ⟨List.nodup_nil, by simp, by simp, by simp, fun k _ => h k⟩⟩

theorem of_agree (h : Creates l news l') (hl : Agree l' l'') : Creates l news l'' :=
  ⟨h.nodup, h.vacant, h.kind, fun x hx => (hl x.1).trans (h.new x hx),
    fun k hk => (hl k).trans (h.old k hk)⟩

theorem perm (h : Creates l news l') (hp : news.Perm news') : Creates l news' l' :=
  ⟨(hp.map _).nodup_iff.1 h.nodup, fun x hx => h.vacant x (hp.mem_iff.2 hx),
    fun x hx => h.kind x (hp.mem_iff.2 hx), fun x hx => h.new x (hp.mem_iff.2 hx),
    fun k hk => h.old k fun x hx => hk x (hp.mem_iff.1 hx)⟩

/-- Where there is something it is not one of the new accounts. -/
theorem ne_of_vacant (h : Creates l news l') (hk : l'.Vacant k) : ∀ x ∈ news, x.1 ≠ k := by
  rintro x hx rfl
  exact not_vacant_of_outline (h.new x hx) (h.kind x hx) hk

/-- One more account is created. -/
theorem put (h : Creates l news l') (hk : l'.Vacant k) (ha : a ≠ .wallet) :
    Creates l ((k, a) :: news) (l'.put k a) := by
  have hne := h.ne_of_vacant hk
  refine ⟨List.nodup_cons.2 ⟨?_, h.nodup⟩, List.forall_mem_cons.2 ⟨?_, h.vacant⟩,
    List.forall_mem_cons.2 ⟨ha, h.kind⟩, List.forall_mem_cons.2 ⟨?_, fun x hx => ?_⟩, fun j hj => ?_⟩
  · intro hmem
    obtain ⟨x, hx, heq⟩ := List.mem_map.1 hmem
    exact hne x hx heq
  · rwa [vacant_iff_outline, ← h.old k hne, ← vacant_iff_outline]
  · rw [outline_put, if_pos rfl]
  · rw [outline_put, if_neg (hne x hx)]
    exact h.new x hx
  · obtain ⟨hj, hrest⟩ := List.forall_mem_cons.1 hj
    rw [outline_put, if_neg (Ne.symm hj)]
    exact h.old j hrest

/-- The account created last is written anew. -/
theorem rewrite (h : Creates l ((k, a) :: news) l') {b : Account} (hb : b ≠ .wallet) :
    Creates l ((k, b) :: news) (l'.put k b) := by
  obtain ⟨hfirst, -⟩ := List.nodup_cons.1 h.nodup
  obtain ⟨hvacant, hrest⟩ := List.forall_mem_cons.1 h.vacant
  obtain ⟨-, hkind⟩ := List.forall_mem_cons.1 h.kind
  obtain ⟨-, hnew⟩ := List.forall_mem_cons.1 h.new
  refine ⟨h.nodup, List.forall_mem_cons.2 ⟨hvacant, hrest⟩, List.forall_mem_cons.2 ⟨hb, hkind⟩,
    List.forall_mem_cons.2 ⟨?_, fun x hx => ?_⟩, fun j hj => ?_⟩
  · rw [outline_put, if_pos rfl]
  · have hne : x.1 ≠ k := fun heq => hfirst (List.mem_map.2 ⟨x, hx, heq⟩)
    rw [outline_put, if_neg hne]
    exact hnew x hx
  · obtain ⟨hj, hothers⟩ := List.forall_mem_cons.1 hj
    rw [outline_put, if_neg (Ne.symm hj)]
    exact h.old j (List.forall_mem_cons.2 ⟨hj, hothers⟩)

/-- What was there keeps its outline. -/
theorem outline_of_not_vacant (h : Creates l news l') (hk : ¬ l.Vacant k) :
    l'.outline k = l.outline k := by
  refine h.old k fun x hx heq => hk ?_
  rw [← heq]
  exact h.vacant x hx

/-- What is at a key is new or was there before, in outline. -/
theorem new_or_old (h : Creates l news l') (k : Key) :
    (∃ a, (k, a) ∈ news ∧ l'.outline k = some a.outline) ∨ l'.outline k = l.outline k := by
  by_cases hk : ∀ x ∈ news, x.1 ≠ k
  · exact .inr (h.old k hk)
  · obtain ⟨x, hx, rfl⟩ : ∃ x ∈ news, x.1 = k := by simpa using hk
    exact .inl ⟨x.2, hx, h.new x hx⟩

/-- Writing an account with the outline that was there creates nothing. -/
theorem put_same (h : Creates l news l') (hk : l.outline k = some a.outline) (ha : a ≠ .wallet) :
    Creates l news (l'.put k a) :=
  h.of_agree ((Agree.refl l').put_same
    ((h.outline_of_not_vacant (not_vacant_of_outline hk ha)).trans hk))

end Creates

end Ledger

open Ledger

variable {e e' : Execution}

/-- Room is made only where there is nothing, and only the payer is asked for it. -/
theorem makeRoom_eq_ok {payer target : AccountRef} {agreed : Bool} {u : Unit}
    (h : makeRoom payer target agreed e = .ok (u, e')) :
    e.ledger.Vacant target.key ∧ e' = e := by
  simp only [makeRoom, Run.bind_eq_ok, Run.ledger_eq_ok] at h
  obtain ⟨_, e, ⟨rfl, rfl⟩, h⟩ := h
  cases hget : e.ledger.get? target.key with
  | none =>
    simp only [hget, Run.bind_eq_ok, Run.lift_eq_ok] at h
    obtain ⟨_, _, ⟨-, rfl⟩, _, e, ⟨-, rfl⟩, h⟩ := h
    refine ⟨.inl hget, ?_⟩
    cases hpayer : e.ledger.get? payer.key with
    | none => simp [hpayer] at h
    | some a => cases a <;> simp_all
  | some a =>
    simp only [hget, Run.bind_eq_ok, Run.lift_eq_ok, demand_eq_ok] at h
    obtain ⟨_, _, ⟨-, rfl⟩, _, _, ⟨-, rfl⟩, ha, rfl⟩ := h
    exact ⟨.inr (ha ▸ hget), rfl⟩

/-! ### The token programs -/

namespace TokenProgram

variable {l l' : Ledger} {program : Key}

theorem tokensAt_eq_ok {k : Key} {t : TokenAccount} :
    tokensAt l k = .ok t ↔ l.get? k = some (.token t) := by
  unfold tokensAt
  split <;> simp_all

theorem mintAt_eq_ok {k : Key} {m : Mint} : mintAt l k = .ok m ↔ l.get? k = some (.mint m) := by
  unfold mintAt
  split <;> simp_all

theorem basicTokensAt_eq_ok {k : Key} {t : TokenAccount} (h : basicTokensAt l k = .ok t) :
    l.get? k = some (.token t) := by
  simp only [basicTokensAt, Verdict.bind_eq_ok, tokensAt_eq_ok, Verdict.pure_eq_ok] at h
  obtain ⟨_, ht, _, -, rfl⟩ := h
  exact ht

theorem basicMintAt_eq_ok {k : Key} {m : Mint} (h : basicMintAt l k = .ok m) :
    l.get? k = some (.mint m) := by
  simp only [basicMintAt, Verdict.bind_eq_ok, mintAt_eq_ok, Verdict.pure_eq_ok] at h
  obtain ⟨_, hm, _, -, rfl⟩ := h
  exact hm

/-- Either program reads an account with tokens as it is. -/
theorem read_tokens {basic : Prop} [Decidable basic] {k : Key} {t : TokenAccount}
    (h : (if basic then basicTokensAt l k else tokensAt l k) = .ok t) :
    l.get? k = some (.token t) := by
  split at h
  · exact basicTokensAt_eq_ok h
  · exact tokensAt_eq_ok.1 h

/-- Either program reads a mint as it is. -/
theorem read_mint {basic : Prop} [Decidable basic] {k : Key} {m : Mint}
    (h : (if basic then basicMintAt l k else mintAt l k) = .ok m) : l.get? k = some (.mint m) := by
  split at h
  · exact basicMintAt_eq_ok h
  · exact mintAt_eq_ok.1 h

variable {source mint destination account authority : Key} {amount decimals : Nat}

/-- New balances do not show in the outline. -/
theorem agree_of_balances {src dst : TokenAccount} (hsrc : l.get? source = some (.token src))
    (hdst : l.get? destination = some (.token dst)) (x y : Nat) :
    Agree l ((l.put source (.token { src with amount := x })).put destination
      (.token { dst with amount := y })) :=
  ((Agree.refl l).put_same (by simp [outline, hsrc, Account.outline])).put_same
    (by simp [outline, hdst, Account.outline])

theorem agree_of_transferBasic
    (h : transferBasic l source mint destination authority amount decimals = .ok l') :
    Agree l l' := by
  simp only [transferBasic, Verdict.bind_eq_ok] at h
  obtain ⟨src, hsrc, dst, hdst, _, -, _, -, _, -, m, -, _, -, _, -, h⟩ := h
  split at h
  · obtain ⟨_, -, h⟩ := Verdict.bind_eq_ok.1 h
    rw [Verdict.pure_eq_ok.1 h]
    exact .refl l
  · simp only [Verdict.bind_eq_ok, Verdict.pure_eq_ok] at h
    obtain ⟨after, -, _, -, rfl⟩ := h
    exact agree_of_balances (basicTokensAt_eq_ok hsrc) (basicTokensAt_eq_ok hdst) _ _

theorem agree_of_transferExtended
    (h : transferExtended l source mint destination authority amount decimals = .ok l') :
    Agree l l' := by
  simp only [transferExtended, Verdict.bind_eq_ok] at h
  obtain ⟨src, hsrc, _, -, _, -, m, -, _, -, _, -, dst, hdst, _, -, h⟩ := h
  split at h
  · rw [Verdict.pure_eq_ok.1 h]
    exact .refl l
  · simp only [Verdict.bind_eq_ok, Verdict.pure_eq_ok] at h
    obtain ⟨_, -, after, -, _, -, rfl⟩ := h
    exact agree_of_balances (tokensAt_eq_ok.1 hsrc) (tokensAt_eq_ok.1 hdst) _ _

/-- A transfer changes balances and nothing else. -/
theorem agree_of_transfer {further : List Key}
    (h : run program (.transfer source mint destination authority amount decimals further) l
      = .ok l') : Agree l l' := by
  simp only [run] at h
  split at h
  · exact agree_of_transferExtended h
  · exact agree_of_transferBasic h

/-- Only the authority of a mint issues tokens of it. -/
theorem issue_eq_ok (h : issue program l mint destination authority amount = .ok l') :
    ∃ dst m, l.get? destination = some (.token dst) ∧ l.get? mint = some (.mint m) ∧
      m.authority = some authority ∧
      l' = (l.put destination (.token { dst with amount := dst.amount + amount })).put mint
        (.mint { m with supply := m.supply + amount }) := by
  simp only [issue, raised, Verdict.ite_bind_eq_ok, Verdict.bind_eq_ok, demand_eq_ok,
    Verdict.pure_eq_ok] at h
  obtain ⟨dst, hdst, _, -, m, hm, _, hauthority, _, -, _, ⟨_, -, rfl⟩, _, ⟨_, -, rfl⟩, rfl⟩ := h
  exact ⟨dst, m, read_tokens hdst, read_mint hm, hauthority, rfl⟩

/-- Only the holder of tokens destroys them, and the supply goes down with them. -/
theorem burn_eq_ok (h : burn program l account mint authority amount = .ok l') :
    ∃ src m, l.get? account = some (.token src) ∧ l.get? mint = some (.mint m) ∧
      src.holder = authority ∧
      l' = (l.put account (.token { src with amount := src.amount - amount })).put mint
        (.mint { m with supply := m.supply - amount }) := by
  simp only [burn, lowered, Verdict.ite_bind_eq_ok, Verdict.bind_eq_ok, demand_eq_ok] at h
  obtain ⟨src, hsrc, _, -, _, -, m, hm, _, hholder, h⟩ := h
  refine ⟨src, m, read_tokens hsrc, read_mint hm, hholder.symm, ?_⟩
  obtain ⟨_, hsupply, h⟩ := Verdict.bind_eq_ok.1 (Verdict.eq_ok_of_checked h)
  obtain ⟨_, -, hsupply⟩ := Verdict.bind_eq_ok.1 hsupply
  rw [Verdict.pure_eq_ok.1 (Verdict.eq_ok_of_checked h), Verdict.pure_eq_ok.1 hsupply]

/-- Only the holder of an empty account closes it. What it was worth may create a wallet before. -/
theorem close_eq_ok (h : close program l account destination authority = .ok l') :
    ∃ src l₁, src.holder = authority ∧
      (l₁ = l ∨ l.get? destination = none ∧ l₁ = l.put destination .wallet) ∧
      l₁.get? account = some (.token src) ∧ l' = l₁.remove account := by
  simp only [close, Verdict.ite_bind_eq_ok, Verdict.bind_eq_ok, demand_eq_ok,
    Verdict.pure_eq_ok] at h
  obtain ⟨_, hne, src, hsrc, _, -, _, hholder, _, -, rfl⟩ := h
  have hsrc := read_tokens hsrc
  refine ⟨src, _, hholder.symm, ?_, ?_, rfl⟩
  · split
    next hnone => exact .inr ⟨Option.isNone_iff_eq_none.1 hnone, rfl⟩
    next => exact .inl rfl
  · split
    · rw [get?_put_ne _ hne, hsrc]
    · exact hsrc

end TokenProgram

end Clmm
