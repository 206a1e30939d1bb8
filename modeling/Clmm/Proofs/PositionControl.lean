import Clmm.Ledger.Client
import Clmm.Proofs.LedgerHistory

/-!
# Clmm.Proofs.PositionControl

**Who controls a position** (`position_is_controlled_by_holder`). Nothing in a position says whose it is. It
belongs to whoever holds the one token of its mint: each instruction that changes or closes a position asks
for an account with exactly this token and for the signature of its holder. That there is never a second
token rests on the issuer of the mint. It is the pool, whose address signs only for the program, and the
program issues tokens of a mint only when it has just created it.

The mint outlives the position. So a position that was closed is not opened again, for that would take the
same mint, or another one whose position happens to have the same address.
-/

namespace Clmm

open Ledger

namespace Ledger

/-- The holder has an account with exactly one token of the mint. -/
def HoldsOne (l : Ledger) (holder mint : Key) : Prop :=
  ∃ k t, l.get? k = some (.token t) ∧ t.mint = mint ∧ t.amount = 1 ∧ t.holder = holder

/-- What happens to a position at a key, from now on. -/
structure Controlled (l : Ledger) (k : Key) (p : Position) : Prop where
  /-- An instruction changes or closes it only with the signature of its holder. -/
  signed : ∀ i refs e, l.Does i refs e → e.ledger.get? k ≠ some (.position p) →
    ∃ ref ∈ refs, ref.isSigner = true ∧ l.HoldsOne ref.key p.nft
  /-- An instruction closes it only if nothing is left in it. -/
  empty : ∀ i refs e, l.Does i refs e → (∀ q, e.ledger.get? k ≠ some (.position q)) →
    p.liquidity = 0 ∧ p.owed = ⟨0, 0⟩
  /-- There is one token of its mint at most, at any later time. -/
  single : ∀ l', l.Leads l' → ∃ m, l'.get? p.nft = some (.mint m) ∧ m.supply ≤ 1
  /-- Once it is closed, no position is there again, unless two mints lead to one hash. -/
  final : ∀ l', l.Leads l' → (∀ q, l'.get? k ≠ some (.position q)) → ∀ l'', l'.Leads l'' →
    ∀ q, l''.get? k = some (.position q) → p.nft ≠ q.nft ∧ ∃ bump bump',
      Address.candidate (Site.position p.nft).seeds bump programId =
        Address.candidate (Site.position q.nft).seeds bump' programId

end Ledger

variable {l l' : Ledger} {refs : List AccountRef} {k : Key} {p : Position}

/-- An address is one hash of what it is derived from. -/
theorem Site.IsAt.candidate {s : Site} (h : s.IsAt k) :
    ∃ bump, Address.candidate s.seeds bump programId = k := by
  obtain ⟨bump, h⟩ := h
  exact ⟨bump, (Address.withBump_eq_some.1 (Address.withBump_of_find h)).2⟩

theorem Position.isEmpty_iff : p.isEmpty = true ↔ p.liquidity = 0 ∧ p.owed = ⟨0, 0⟩ := by
  cases howed : p.owed
  simp [Position.isEmpty, howed, and_assoc]

namespace Processor

/-- What an instruction does to a position: nothing, or its holder signs, and then it is there afterwards
or nothing was left in it. -/
theorem Effect.position (h : Effect l refs l') (hp : l.get? k = some (.position p)) :
    l'.get? k = some (.position p) ∨
      (∃ ref ∈ refs, ref.isSigner = true ∧ l.HoldsOne ref.key p.nft) ∧
        ((∃ q, l'.get? k = some (.position q)) ∨ p.isEmpty = true) := by
  cases h with
  | creates hcreates =>
    have hold := hcreates.outline_of_not_vacant (not_vacant hp (by simp))
    exact .inl (position_of_outline hold hp)
  | @changes a e ha =>
    obtain ⟨q, -, hagree⟩ := ha.changes
    by_cases hk : k = a.position.key
    · subst hk
      obtain rfl := Account.position.inj (Option.some.inj (hp.symm.trans ha.position))
      exact .inr ⟨⟨_, ha.signer.1, ha.signer.2, _, _, ha.tokens, ha.holds⟩,
        .inl ⟨q, position_of_outline (hagree _) (get?_put_self l _ _)⟩⟩
    · exact .inl (position_of_outline (hagree k) ((get?_put_ne l hk _).trans hp))
  | @closes a _ ha =>
    obtain ⟨program, l₁, l₂, hburn, hclose, rfl⟩ := ha.closes
    by_cases hk : k = a.position.key
    · subst hk
      obtain rfl := Account.position.inj (Option.some.inj (hp.symm.trans ha.position))
      exact .inr ⟨⟨_, ha.signer.1, ha.signer.2, _, _, ha.tokens, ha.holds⟩, .inr ha.empty⟩
    · have hkept := TokenProgram.get?_position_of_run hclose
        (TokenProgram.get?_position_of_run hburn hp)
      exact .inl (by rw [get?_remove, if_neg hk, hkept])

end Processor

namespace Ledger

/-- So does an instruction as it is sent, where the same signer may be named more than once. -/
theorem Does.position {i : Instruction} {e : Execution} (h : l.Does i refs e)
    (hp : l.get? k = some (.position p)) : e.ledger.get? k = some (.position p) ∨
      (∃ ref ∈ refs, ref.isSigner = true ∧ l.HoldsOne ref.key p.nft) ∧
        ((∃ q, e.ledger.get? k = some (.position q)) ∨ p.isEmpty = true) := by
  obtain ⟨e₀, rfl, hcalls, hrun⟩ := h.dispatch
  refine ((Processor.effect_of_dispatch hrun hcalls).position hp).imp_right
    (And.imp_left fun ⟨ref, href, hsigner, hholds⟩ => ?_)
  obtain ⟨r, hr, hsigns, hkey⟩ := Processor.exists_of_mem_shareFlags href hsigner
  exact ⟨r, hr, hsigns, hkey ▸ hholds⟩

/-- On every ledger that is attained, a position is controlled by the holder of its token. -/
theorem position_is_controlled_by_holder (hl : l.Attained) (hp : l.get? k = some (.position p)) :
    l.Controlled k p where
  signed i refs e hdoes hchanged :=
    ((hdoes.position hp).resolve_left hchanged).1
  empty i refs e hdoes hclosed := by
    rcases hdoes.position hp with hkept | ⟨-, ⟨q, hq⟩ | hempty⟩
    · exact absurd hkept (hclosed p)
    · exact absurd hq (hclosed q)
    · exact Position.isEmpty_iff.1 hempty
  single l' hleads := by
    obtain ⟨hcontinues, -⟩ := hleads.continues hl.sound
    obtain ⟨m, hm, hnft⟩ := hcontinues.nfts _ (hl.sound.positions k p hp).2
    exact ⟨m, hm, hnft.supply⟩
  final l' hleads hclosed l'' hleads' q hq := by
    obtain ⟨hat, hnft⟩ := hl.sound.positions k p hp
    obtain ⟨hcontinues, hs'⟩ := hleads.continues hl.sound
    obtain ⟨hcontinues', hs''⟩ := hleads'.continues hs'
    refine ⟨?_, ?_⟩
    · intro heq
      -- the mint was known when the position was closed, so this is not a new position
      rcases hcontinues'.positions k q hq with ⟨p', hp', -⟩ | ⟨-, -, hnew⟩
      · exact hclosed p' hp'
      · exact hnew (heq ▸ hcontinues.nfts _ hnft)
    · obtain ⟨bump, hbump⟩ := hat.candidate
      obtain ⟨bump', hbump'⟩ := (hs''.positions k q hq).1.candidate
      exact ⟨bump, bump', hbump.trans hbump'.symm⟩

end Ledger

namespace SoundLedger

/-- The accounts with which the user, who holds the token of the position, closes it. -/
def closing : List AccountRef :=
  [.paying user, .writable nft, .writable nftAccount, .writable position, .readOnly tokenProgram,
    .readOnly systemProgram]

end SoundLedger

open SoundLedger in
/-- The holder closes an empty position. -/
theorem position_is_controlled_by_holder_on_closing : ∃ e : Execution,
    ledger.Attained ∧ ledger.get? position = some (.position thePosition) ∧
    ledger.Does .closePosition closing e ∧ e.ledger.get? position = none ∧
    ledger.Controlled position thePosition := by
  have hrun : (Processor.runInstruction .closePosition closing
      ⟨ledger, Trace.empty⟩).toOption.any (·.2.ledger.get? position = none) = true := by
    decide +kernel
  obtain ⟨⟨⟨⟩, e⟩, hdoes, hclosed⟩ := exists_ok_of_any hrun
  exact ⟨e, attained, rfl, hdoes, of_decide_eq_true hclosed,
    position_is_controlled_by_holder attained rfl⟩

end Clmm
