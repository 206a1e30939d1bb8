import Clmm.Layout
import Mathlib.Data.List.Nodup
import Mathlib.Logic.Relation

/-!
# Clmm.Proofs.HookGovernance

**How the registry of hooks is governed** (`hooks_are_governed`). Whatever is called by whom, starting from
an empty registry: a program has at most one entry, its status only moves from unregistered to pending to
approved, and it is approved exactly if an accepted registration was followed by an accepted approval of
the authority. A refused call leaves the registry as it was.

An account of a registry always has room for it. No call looks at that: the room is for twice the capacity,
and only because each status is kept below its capacity is this enough.
-/

namespace Clmm

/-- What anyone may ask of a registry. -/
inductive HookCall
  /-- Registers a program. -/
  | register (program : Key)
  /-- Approves a program, in the name of a signer. -/
  | approve (signer program : Key)
deriving DecidableEq

namespace HookCall

/-- Carries a call out. -/
def run : HookCall → Update HookRegistry Unit
  | register program => HookRegistry.registration program
  | approve signer program => HookRegistry.approval signer program

/-- The call succeeds. -/
def isAccepted (c : HookCall) (r : HookRegistry) : Bool :=
  match c.run r with
  | .ok _ _ => true
  | .error _ _ => false

/-- The registry that a call leaves, whether it succeeds or not. -/
def leaves (c : HookCall) (r : HookRegistry) : HookRegistry :=
  match c.run r with
  | .ok _ r' => r'
  | .error _ r' => r'

end HookCall

namespace HookRegistry

variable {r r' : HookRegistry} {signer p : Key} {u : Unit} {e : Failure}

/-! ### What a call does -/

/-- A registration succeeds if the program is new and there is room. It adds a pending entry. -/
theorem registration_eq_ok : registration p r = .ok u r' ↔
    r.status? p = none ∧ (r.withStatus .pending).length < capacity ∧
      r' = { r with entries := r.entries ++ [⟨p, .pending⟩] } := by
  simp [registration, Update.bind_eq_ok]

/-- A registration is refused before anything is written: of a known program, then for lack of room. -/
theorem registration_eq_error : registration p r = .error e r' ↔
    r' = r ∧ (r.status? p ≠ none ∧ e = .refused .alreadyRegistered ∨
      r.status? p = none ∧ capacity ≤ (r.withStatus .pending).length ∧
        e = .refused .tooManyHooks) := by
  simp only [registration, Update.bind_eq_error, Update.get_eq_error, Update.get_eq_ok,
    Update.lift_eq_error, Update.lift_eq_ok, Update.modify_eq_error, ExceptT.stM_eq,
    require_eq_error, require_eq_ok]
  grind

/-- An approval succeeds if the authority approves a pending program and there is room. It marks the
entry of the program. -/
theorem approval_eq_ok : approval signer p r = .ok u r' ↔
    signer = r.authority ∧ p ∈ r.withStatus .pending ∧
      (r.withStatus .approved).length < capacity ∧
      r' = { r with entries := markApproved p r.entries } := by
  simp [approval, Update.bind_eq_ok]

/-- An approval is refused before anything is written: of a stranger, then of a program that is not
pending, then for lack of room. -/
theorem approval_eq_error : approval signer p r = .error e r' ↔
    r' = r ∧ (signer ≠ r.authority ∧ e = .refused .unauthorized ∨
      signer = r.authority ∧ p ∉ r.withStatus .pending ∧ e = .refused .notPending ∨
      signer = r.authority ∧ p ∈ r.withStatus .pending ∧
        capacity ≤ (r.withStatus .approved).length ∧ e = .refused .tooManyHooks) := by
  simp only [approval, Update.bind_eq_error, Update.get_eq_error, Update.get_eq_ok,
    Update.lift_eq_error, Update.lift_eq_ok, Update.modify_eq_error, ExceptT.stM_eq,
    require_eq_error, require_eq_ok]
  grind

end HookRegistry

namespace HookCall

variable {c : HookCall} {r : HookRegistry}

theorem isAccepted_iff : c.isAccepted r ↔ ∃ r', c.run r = .ok () r' := by
  simp only [isAccepted]
  cases hrun : c.run r <;> simp

/-- A call is carried out, or it is refused and leaves the registry as it was. -/
theorem run_cases (c : HookCall) (r : HookRegistry) :
    c.isAccepted r = true ∧ c.run r = .ok () (c.leaves r) ∨
      c.isAccepted r = false ∧ c.leaves r = r := by
  simp only [isAccepted, leaves]
  cases hrun : c.run r with
  | ok _ r' => exact .inl ⟨rfl, rfl⟩
  | error e r' =>
      refine .inr ⟨rfl, ?_⟩
      cases c with
      | register p => exact (HookRegistry.registration_eq_error.1 hrun).1
      | approve signer p => exact (HookRegistry.approval_eq_error.1 hrun).1

end HookCall

namespace HookRegistry

variable {r r' : HookRegistry} {authority signer p : Key} {s : HookStatus} {u : Unit}

/-! ### Entries -/

/-- The programs of all entries. -/
def programs (r : HookRegistry) : List Key := r.entries.map (·.program)

theorem mem_withStatus : p ∈ r.withStatus s ↔ ⟨p, s⟩ ∈ r.entries := by
  simp only [withStatus, List.mem_map, List.mem_filter, decide_eq_true_eq]
  constructor
  · rintro ⟨⟨_, _⟩, ⟨hmem, rfl⟩, rfl⟩
    exact hmem
  · intro hmem
    exact ⟨⟨p, s⟩, ⟨hmem, rfl⟩, rfl⟩

theorem status?_eq_none : r.status? p = none ↔ p ∉ r.programs := by
  simp [status?, programs]

/-- Where no program has two entries, the entry of a program tells its status. -/
theorem status?_eq_some (hunique : r.programs.Nodup) : r.status? p = some s ↔ ⟨p, s⟩ ∈ r.entries := by
  simp only [status?, Option.map_eq_some_iff]
  constructor
  · rintro ⟨⟨_, _⟩, hfound, rfl⟩
    obtain rfl : _ = p := by simpa using List.find?_some hfound
    exact List.mem_of_find?_eq_some hfound
  · intro hmem
    obtain ⟨e, hfound⟩ : ∃ e, r.entries.find? (·.program = p) = some e :=
      Option.isSome_iff_exists.1 (List.find?_isSome.2 ⟨⟨p, s⟩, hmem, by simp⟩)
    have hprogram : e.program = p := by simpa using List.find?_some hfound
    obtain rfl : e = ⟨p, s⟩ :=
      List.inj_on_of_nodup_map hunique (List.mem_of_find?_eq_some hfound) hmem hprogram
    exact ⟨_, hfound, rfl⟩

/-- The number of programs with a status, one entry counted by itself. -/
theorem length_withStatus {older newer : List HookEntry} {entry : HookEntry}
    (h : r.entries = older ++ entry :: newer) : (r.withStatus s).length =
      (older ++ newer).countP (·.status = s) + if entry.status = s then 1 else 0 := by
  simp only [withStatus, List.length_map, ← List.countP_eq_length_filter, h, List.countP_append,
    List.countP_cons, decide_eq_true_eq]
  omega

/-- Every entry is pending or approved. -/
theorem length_entries (r : HookRegistry) :
    r.entries.length = (r.withStatus .pending).length + (r.withStatus .approved).length := by
  simp only [withStatus, List.length_map]
  rw [List.length_eq_length_filter_add (fun e : HookEntry => decide (e.status = .pending))]
  congr 3
  funext e
  cases e.status <;> rfl

/-- Marking changes the status of one entry, in its place. -/
theorem markApproved_eq {es : List HookEntry} (hmem : ⟨p, .pending⟩ ∈ es) :
    ∃ older newer, es = older ++ ⟨p, .pending⟩ :: newer ∧
      markApproved p es = older ++ ⟨p, .approved⟩ :: newer := by
  induction es with
  | nil => cases hmem
  | cons e es ih =>
      simp only [markApproved]
      by_cases hthis : e.program = p ∧ e.status = .pending
      · obtain ⟨program, status⟩ := e
        obtain ⟨rfl, rfl⟩ := hthis
        exact ⟨[], es, rfl, by simp⟩
      · have hlater : ⟨p, .pending⟩ ∈ es := by
          refine (List.mem_cons.1 hmem).resolve_left ?_
          rintro rfl
          exact hthis ⟨rfl, rfl⟩
        obtain ⟨older, newer, rfl, hmark⟩ := ih hlater
        exact ⟨e :: older, newer, rfl, by rw [if_neg hthis, hmark]; rfl⟩

/-! ### What changes -/

/-- A registration makes the program pending and leaves the status of every other one. -/
theorem status?_of_registration (h : registration p r = .ok u r') :
    r'.status? = Function.update r.status? p (some .pending) := by
  obtain ⟨hnew, -, rfl⟩ := registration_eq_ok.1 h
  funext q
  by_cases hq : q = p
  · subst hq
    have hnone : r.entries.find? (·.program = q) = none := by simpa [status?] using hnew
    simp [status?, hnone]
  · have hother : ¬ p = q := fun hp => hq hp.symm
    simp [status?, Function.update_of_ne hq, hother]

/-- An approval changes the status of one entry, in its place. -/
theorem eq_of_approval (h : approval signer p r = .ok u r') :
    ∃ older newer, r.entries = older ++ ⟨p, .pending⟩ :: newer ∧
      r' = { r with entries := older ++ ⟨p, .approved⟩ :: newer } := by
  obtain ⟨-, hpending, -, rfl⟩ := approval_eq_ok.1 h
  obtain ⟨older, newer, hbefore, hafter⟩ := markApproved_eq (mem_withStatus.1 hpending)
  exact ⟨older, newer, hbefore, by rw [hafter]⟩

/-- An approval makes the program approved and leaves the status of every other one. -/
theorem status?_of_approval (hunique : r.programs.Nodup) (h : approval signer p r = .ok u r') :
    r'.status? = Function.update r.status? p (some .approved) := by
  obtain ⟨older, newer, hbefore, rfl⟩ := eq_of_approval h
  simp only [programs, hbefore, List.map_append, List.map_cons] at hunique
  funext q
  by_cases hq : q = p
  · subst hq
    have hnone : older.find? (·.program = q) = none := by
      simp only [List.find?_eq_none, decide_eq_true_eq]
      rintro e he rfl
      exact (List.nodup_append.1 hunique).2.2 _ (List.mem_map_of_mem he) _ List.mem_cons_self rfl
    simp [status?, hnone]
  · have hother : ¬ p = q := fun hp => hq hp.symm
    simp [status?, hbefore, Function.update_of_ne hq, hother]

/-! ### Histories -/

/-- The registry that calls leave, newest first, each accepted or not. -/
def governed (r : HookRegistry) : List HookCall → HookRegistry
  | [] => r
  | c :: earlier => c.leaves (r.governed earlier)

/-- The calls that were accepted, newest first. -/
def accepted (r : HookRegistry) : List HookCall → List HookCall
  | [] => []
  | c :: earlier =>
    if c.isAccepted (r.governed earlier) then c :: r.accepted earlier else r.accepted earlier

/-- A registry as accepted calls leave it, newest first, if an authority governs it. -/
structure Governs (authority : Key) (calls : List HookCall) (r : HookRegistry) : Prop where
  authority_eq : r.authority = authority
  /-- A program has at most one entry. -/
  unique : r.programs.Nodup
  pending_le : (r.withStatus .pending).length ≤ capacity
  approved_le : (r.withStatus .approved).length ≤ capacity
  /-- The unregistered programs are those without a registration. -/
  unregistered : ∀ p, r.status? p = none ↔ .register p ∉ calls
  /-- The approved programs are those with an approval of the authority after a registration. -/
  approved : ∀ p, r.status? p = some .approved ↔ [.approve authority p, .register p].Sublist calls

variable {calls : List HookCall} {bump : Nat}

theorem governs_empty : Governs authority [] (empty authority bump) where
  authority_eq := rfl
  unique := List.nodup_nil
  pending_le := Nat.zero_le _
  approved_le := Nat.zero_le _
  unregistered p := by simp [status?, empty]
  approved p := by simp [status?, empty]

/-- A registry stays governed through a registration. -/
theorem Governs.registration (hr : Governs authority calls r)
    (h : HookRegistry.registration p r = .ok u r') : Governs authority (.register p :: calls) r' := by
  have hstatus := status?_of_registration h
  obtain ⟨hnew, hroom, rfl⟩ := registration_eq_ok.1 h
  refine ⟨hr.authority_eq, ?unique, ?pending, ?approved, ?unregistered, ?approvals⟩
  case unique =>
    have hfresh := status?_eq_none.1 hnew
    simp only [programs, List.map_append, List.map_cons, List.map_nil]
    exact List.nodup_append.2 ⟨hr.unique, List.nodup_singleton _, by
      rintro _ hq _ hp rfl
      exact hfresh (List.mem_singleton.1 hp ▸ hq)⟩
  case pending => simpa [withStatus] using Nat.succ_le_of_lt hroom
  case approved => simpa [withStatus] using hr.approved_le
  case unregistered =>
    intro q
    rw [hstatus]
    by_cases hq : q = p
    · simp [hq]
    · simp [hq, hr.unregistered q]
  case approvals =>
    intro q
    rw [hstatus, List.sublist_cons_iff]
    by_cases hq : q = p
    · have hnot : ¬ [.approve authority p, .register p].Sublist calls := by
        rw [← hr.approved, hnew]
        exact nofun
      simp [hq, hnot]
    · simp [hq, hr.approved q]

/-- A registry stays governed through an approval. -/
theorem Governs.approval (hr : Governs authority calls r)
    (h : HookRegistry.approval signer p r = .ok u r') :
    Governs authority (.approve signer p :: calls) r' := by
  have hstatus := status?_of_approval hr.unique h
  obtain ⟨older, newer, hbefore, rfl⟩ := eq_of_approval h
  obtain ⟨rfl, hpending, hroom, -⟩ := approval_eq_ok.1 h
  obtain rfl := hr.authority_eq
  have hwas : r.status? p = some .pending :=
    (status?_eq_some hr.unique).2 (mem_withStatus.1 hpending)
  have hknown : .register p ∈ calls := by
    by_contra hnot
    rw [(hr.unregistered p).2 hnot] at hwas
    cases hwas
  refine ⟨rfl, ?unique, ?pending, ?approved, ?unregistered, ?approvals⟩
  case unique => simpa [programs, hbefore] using hr.unique
  case pending =>
    have hle := hr.pending_le
    rw [length_withStatus hbefore] at hle
    rw [length_withStatus rfl, if_neg nofun]
    omega
  case approved =>
    rw [length_withStatus hbefore, if_neg nofun] at hroom
    rw [length_withStatus rfl, if_pos rfl]
    omega
  case unregistered =>
    intro q
    rw [hstatus]
    by_cases hq : q = p
    · simp [hq, hknown]
    · simp [hq, hr.unregistered q]
  case approvals =>
    intro q
    rw [hstatus, List.sublist_cons_iff]
    by_cases hq : q = p
    · simp [hq, hknown]
    · simp [hq, hr.approved q]

/-- A registry stays governed through any calls, accepted or not. -/
theorem Governs.after_calls (hr : Governs authority calls r) (later : List HookCall) :
    Governs authority (r.accepted later ++ calls) (r.governed later) := by
  induction later with
  | nil => exact hr
  | cons c between ih =>
      simp only [governed, accepted]
      obtain ⟨haccepted, hrun⟩ | ⟨hrefused, hsame⟩ := c.run_cases (r.governed between)
      · rw [if_pos haccepted]
        cases c with
        | register p => exact ih.registration hrun
        | approve signer p => exact ih.approval hrun
      · rw [hrefused, if_neg Bool.false_ne_true, hsame]
        exact ih

/-! ### Which way the status goes -/

/-- A program moves on to the next status. -/
inductive Moves : Option HookStatus → Option HookStatus → Prop
  | registered : Moves none (some .pending)
  | approved : Moves (some .pending) (some .approved)

/-- A call moves the status of a program on by one, or leaves it. -/
theorem Governs.moves (hr : Governs authority calls r) (c : HookCall) (q : Key) :
    Relation.ReflGen Moves (r.status? q) ((c.leaves r).status? q) := by
  obtain ⟨-, hrun⟩ | ⟨-, hsame⟩ := c.run_cases r
  · cases c with
    | register p =>
        obtain ⟨hnew, -⟩ := registration_eq_ok.1 hrun
        rw [status?_of_registration hrun]
        by_cases hq : q = p
        · subst hq
          rw [Function.update_self, hnew]
          exact .single .registered
        · rw [Function.update_of_ne hq]
    | approve signer p =>
        obtain ⟨-, hpending, -⟩ := approval_eq_ok.1 hrun
        rw [status?_of_approval hr.unique hrun]
        by_cases hq : q = p
        · subst hq
          rw [Function.update_self, (status?_eq_some hr.unique).2 (mem_withStatus.1 hpending)]
          exact .single .approved
        · rw [Function.update_of_ne hq]
  · rw [hsame]

/-- Calls move the status of a program on, if they change it. -/
theorem Governs.path (hr : Governs authority calls r) (later : List HookCall) (q : Key) :
    Relation.ReflTransGen Moves (r.status? q) ((r.governed later).status? q) := by
  induction later with
  | nil => exact .refl
  | cons c between ih => exact ih.trans ((hr.after_calls between).moves c q).to_reflTransGen

/-! ### The size of the account -/

/-- The account of a registry takes 45 bytes and 33 for each entry. -/
theorem length_accountData (r : HookRegistry) :
    (accountData .hooks HookRegistry.codec r).length = 45 + 33 * r.entries.length := by
  have hentry : ∀ e : HookEntry, (HookEntry.codec.encode e).length = 33 := fun e => by
    change (e.program.toBytes ++ [_]).length = 33
    simp
  change (AccountKind.hooks.discriminator ++ (r.authority.toBytes ++ (Bytes.le 1 r.bump ++
    (Bytes.le 4 r.entries.length ++ r.entries.flatMap HookEntry.codec.encode)))).length = _
  simp [List.length_flatMap, hentry]
  omega

/-- Both statuses at capacity just fill the account. -/
theorem Governs.length_accountData_le (hr : Governs authority calls r) :
    (accountData .hooks HookRegistry.codec r).length ≤ AccountKind.hooks.size := by
  have hpending := hr.pending_le
  have happroved := hr.approved_le
  rw [length_accountData, length_entries]
  simp only [capacity, AccountKind.size, HookEntry.size] at *
  omega

end HookRegistry

/-- **The registry of hooks is governed.** After any calls of anyone, starting from an empty registry:

* no program has two entries, and at most 20 programs are pending and at most 20 approved;
* the authority is the one that the registry was set up with;
* a program is unregistered exactly if no registration of it was accepted, and approved exactly if after
  its registration the authority approved it;
* the next registration is accepted exactly if the program is new and there is room, and the next
  approval exactly if it is the authority's, the program is pending and there is room;
* the next call moves the status of a program from unregistered to pending, from pending to approved, or
  leaves it; later calls never take it back;
* a refused call leaves the registry as it was;
* the account has room for the registry. -/
theorem hooks_are_governed (authority : Key) (bump : Nat) (calls : List HookCall) :
    let fresh := HookRegistry.empty authority bump
    let r := fresh.governed calls
    r.programs.Nodup ∧ (r.withStatus .pending).length ≤ 20 ∧ (r.withStatus .approved).length ≤ 20 ∧
    r.authority = authority ∧
    (∀ p, r.status? p = none ↔ .register p ∉ fresh.accepted calls) ∧
    (∀ p, r.status? p = some .approved ↔
      [.approve authority p, .register p].Sublist (fresh.accepted calls)) ∧
    (∀ p, (HookCall.register p).isAccepted r ↔
      r.status? p = none ∧ (r.withStatus .pending).length < 20) ∧
    (∀ signer p, (HookCall.approve signer p).isAccepted r ↔
      signer = authority ∧ r.status? p = some .pending ∧ (r.withStatus .approved).length < 20) ∧
    (∀ c p, Relation.ReflGen HookRegistry.Moves (r.status? p) ((HookCall.leaves c r).status? p)) ∧
    (∀ later p, Relation.ReflTransGen HookRegistry.Moves (r.status? p)
      ((r.governed later).status? p)) ∧
    (∀ c, ¬ HookCall.isAccepted c r → c.leaves r = r) ∧
    (accountData .hooks HookRegistry.codec r).length ≤ AccountKind.hooks.size := by
  intro fresh r
  have hr : HookRegistry.Governs authority (fresh.accepted calls) r := by
    simpa using HookRegistry.governs_empty.after_calls calls
  refine ⟨hr.unique, hr.pending_le, hr.approved_le, hr.authority_eq, hr.unregistered, hr.approved,
    ?registers, ?approves, hr.moves, hr.path, ?refused, hr.length_accountData_le⟩
  case registers =>
    intro p
    simp [HookCall.isAccepted_iff, HookCall.run, HookRegistry.registration_eq_ok,
      HookRegistry.capacity]
  case approves =>
    intro signer p
    rw [HookRegistry.status?_eq_some hr.unique, ← HookRegistry.mem_withStatus]
    simp [HookCall.isAccepted_iff, HookCall.run, HookRegistry.approval_eq_ok,
      HookRegistry.capacity, hr.authority_eq]
  case refused =>
    intro c hrefused
    obtain ⟨haccepted, -⟩ | ⟨-, hsame⟩ := c.run_cases r
    · exact absurd haccepted hrefused
    · exact hsame

/-- The approval of a stranger leaves a program pending. -/
example : ((HookRegistry.empty 1 0).governed [.approve 2 7, .register 7]).status? 7 =
    some .pending := by decide

end Clmm
