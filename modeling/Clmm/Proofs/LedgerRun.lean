import Clmm.Ledger.Processor

/-!
# Clmm.Proofs.LedgerRun

**Reading the run of an instruction backwards.** A step of an instruction is a function of the ledger
and of the trace so far, and it ends with a result or with a rejection. A run that succeeds is taken
apart here, one step at a time: what the accounts it was given held, which checks it passed, and what
it wrote.

Where a proof does not need to know each step, it is enough that no step breaks what holds before it
(`Run.Keeps`), and that is shown along the way the steps are put together.
-/

namespace Clmm

variable {α β : Type}

/-! ### Verdicts -/

namespace Verdict

/-- A sequence succeeds exactly when its first part does and the rest does on its value. -/
theorem bind_eq_ok {x : Verdict α} {f : α → Verdict β} {b : β} :
    (x >>= f) = .ok b ↔ ∃ a, x = .ok a ∧ f a = .ok b := by
  cases x <;> simp [bind, Except.bind]

/-- Two branches that go on in the same way. -/
theorem ite_bind_eq_ok {c : Prop} [Decidable c] {x y : Verdict α} {f : α → Verdict β} {b : β} :
    (if c then x >>= f else y >>= f) = .ok b ↔
      ∃ a, (if c then x else y) = .ok a ∧ f a = .ok b := by
  by_cases h : c
  · simp only [if_pos h]
    exact bind_eq_ok
  · simp only [if_neg h]
    exact bind_eq_ok

/-- A check that is made in some cases only does not change what follows it. -/
theorem eq_ok_of_checked {c : Prop} [Decidable c] {check : Verdict Unit} {x : Verdict α} {a : α}
    (h : (if c then (do check; x) else x) = .ok a) : x = .ok a := by
  split at h
  · obtain ⟨_, -, hx⟩ := bind_eq_ok.1 h
    exact hx
  · exact h

@[simp] theorem pure_eq_ok {a b : α} : (pure a : Verdict α) = .ok b ↔ b = a := by
  change Except.ok a = Except.ok b ↔ _
  simp [eq_comm]

@[simp] theorem throw_eq_ok {r : Rejection} {a : α} : (throw r : Verdict α) = .ok a ↔ False := by
  change Except.error r = Except.ok a ↔ _
  simp

/-- A computation by the pool's rules succeeds as a verdict exactly when it does. -/
@[simp] theorem lift_eq_ok {x : Outcome α} {a : α} :
    (x : Verdict α) = .ok a ↔ x = .ok a := by
  cases x with
  | ok b =>
    change Except.ok b = Except.ok a ↔ _
    simp
  | error e =>
    change Except.error _ = Except.ok a ↔ _
    simp

end Verdict

/-! ### Steps of an instruction -/

namespace Run

variable {e e' : Execution}

/-- A sequence of steps succeeds exactly when its first part does and the rest does from what that
part leaves. -/
theorem bind_eq_ok {x : Run α} {f : α → Run β} {b : β} :
    (x >>= f) e = .ok (b, e') ↔ ∃ a t, x e = .ok (a, t) ∧ f a t = .ok (b, e') := by
  change (x e >>= fun p => f p.1 p.2) = _ ↔ _
  rw [Verdict.bind_eq_ok]
  simp

@[simp] theorem pure_eq_ok {a b : α} : (pure a : Run α) e = .ok (b, e') ↔ b = a ∧ e' = e := by
  change Except.ok (a, e) = Except.ok (b, e') ↔ _
  simp [eq_comm]

@[simp] theorem throw_eq_ok {r : Rejection} {a : α} :
    (throw r : Run α) e = .ok (a, e') ↔ False := by
  change Except.error r = Except.ok (a, e') ↔ _
  simp

-- the lifts are written as ascriptions, so that they are the ones a `do` block puts in
/-- A check changes nothing. -/
@[simp] theorem lift_eq_ok {v : Verdict α} {a : α} :
    (v : Run α) e = .ok (a, e') ↔ v = .ok a ∧ e' = e := by
  change (v >>= fun b => Except.ok (b, e)) = _ ↔ _
  rw [Verdict.bind_eq_ok]
  simp only [Except.ok.injEq, Prod.mk.injEq]
  constructor
  · rintro ⟨b, h, rfl, rfl⟩
    exact ⟨h, rfl⟩
  · rintro ⟨h, rfl⟩
    exact ⟨a, h, rfl, rfl⟩

/-- A computation by the pool's rules changes nothing. -/
@[simp] theorem liftOutcome_eq_ok {x : Outcome α} {a : α} :
    (x : Run α) e = .ok (a, e') ↔ x = .ok a ∧ e' = e := by
  change ((x : Verdict α) : Run α) e = _ ↔ _
  rw [lift_eq_ok, Verdict.lift_eq_ok]

@[simp] theorem ledger_eq_ok {l : Ledger} :
    Run.ledger e = .ok (l, e') ↔ l = e.ledger ∧ e' = e := by
  change Except.ok (e.ledger, e) = Except.ok (l, e') ↔ _
  simp [eq_comm]

/-! A step that changes nothing drops out of a sequence. -/

theorem lift_bind_eq_ok {v : Verdict α} {f : α → Run β} {b : β} :
    ((v : Run α) >>= f) e = .ok (b, e') ↔ ∃ a, v = .ok a ∧ f a e = .ok (b, e') := by
  simp [bind_eq_ok, and_assoc]

theorem liftOutcome_bind_eq_ok {x : Outcome α} {f : α → Run β} {b : β} :
    ((x : Run α) >>= f) e = .ok (b, e') ↔ ∃ a, x = .ok a ∧ f a e = .ok (b, e') := by
  simp [bind_eq_ok, and_assoc]

theorem ledger_bind_eq_ok {f : Ledger → Run β} {b : β} :
    (Run.ledger >>= f) e = .ok (b, e') ↔ f e.ledger e = .ok (b, e') := by
  simp [bind_eq_ok, and_assoc]

theorem onLedger_eq_ok {f : Ledger → Verdict Ledger} {u : Unit} :
    onLedger f e = .ok (u, e') ↔ ∃ l, f e.ledger = .ok l ∧ e' = { e with ledger := l } := by
  change (((f e.ledger : Verdict Ledger) : Run Ledger) >>= fun l => set { e with ledger := l }) e = _ ↔ _
  simp only [bind_eq_ok, lift_eq_ok]
  constructor
  · rintro ⟨l, t, ⟨hf, rfl⟩, h⟩
    exact ⟨l, hf, (Prod.mk.inj (Except.ok.inj h)).2.symm⟩
  · rintro ⟨l, hf, rfl⟩
    exact ⟨l, e, ⟨hf, rfl⟩, rfl⟩

@[simp] theorem put_eq_ok {k : Key} {a : Account} {u : Unit} :
    put k a e = .ok (u, e') ↔ e' = { e with ledger := e.ledger.put k a } := by
  simp [put, onLedger_eq_ok]

theorem put_bind_eq_ok {k : Key} {a : Account} {f : Unit → Run β} {b : β} :
    (put k a >>= f) e = .ok (b, e') ↔
      f () { e with ledger := e.ledger.put k a } = .ok (b, e') := by
  rw [bind_eq_ok]
  constructor
  · rintro ⟨_, t, hput, h⟩
    rwa [put_eq_ok.1 hput] at h
  · exact fun h => ⟨(), _, put_eq_ok.2 rfl, h⟩

theorem emit_eq_ok {event : Event} {u : Unit} :
    emit event e = .ok (u, e') ↔
      e' = { e with trace := { e.trace with events := e.trace.events ++ [event] } } := by
  change Except.ok ((), _) = Except.ok (u, e') ↔ _
  simp [eq_comm]

theorem log_eq_ok {line : String} {u : Unit} :
    log line e = .ok (u, e') ↔
      e' = { e with trace := { e.trace with logs := e.trace.logs ++ [line] } } := by
  change Except.ok ((), _) = Except.ok (u, e') ↔ _
  simp [eq_comm]

theorem call_eq_ok {program : Key} {c : TokenCall} {u : Unit} :
    call program c e = .ok (u, e') ↔ ∃ l, TokenProgram.run program c e.ledger = .ok l ∧
      e' = ⟨l, { e.trace with calls := e.trace.calls ++ [⟨program, c⟩] }⟩ := by
  simp only [call, bind_eq_ok, onLedger_eq_ok]
  constructor
  · rintro ⟨_, t, ⟨l, hl, rfl⟩, h⟩
    exact ⟨l, hl, (Prod.mk.inj (Except.ok.inj h)).2.symm⟩
  · rintro ⟨l, hl, rfl⟩
    exact ⟨(), _, ⟨l, hl, rfl⟩, rfl⟩

/-! ### What steps keep -/

/-- Whatever a successful run of `x` does, it keeps `P`. -/
def Keeps (P : Execution → Prop) (x : Run α) : Prop :=
  ∀ ⦃e a e'⦄, P e → x e = .ok (a, e') → P e'

namespace Keeps

variable {P : Execution → Prop}

theorem pure (a : α) : Keeps P (Pure.pure a : Run α) := by
  intro e b e' he h
  obtain ⟨-, rfl⟩ := pure_eq_ok.1 h
  exact he

theorem bind {x : Run α} {f : α → Run β} (hx : Keeps P x) (hf : ∀ a, Keeps P (f a)) :
    Keeps P (x >>= f) := by
  intro e b e' he h
  obtain ⟨a, t, hxt, hft⟩ := bind_eq_ok.1 h
  exact hf a (hx he hxt) hft

theorem throw (r : Rejection) : Keeps P (MonadExcept.throw r : Run α) :=
  fun _ _ _ _ h => (throw_eq_ok.1 h).elim

theorem liftOutcome (x : Outcome α) : Keeps P (x : Run α) := by
  intro e a e' he h
  obtain ⟨-, rfl⟩ := liftOutcome_eq_ok.1 h
  exact he

theorem ite {c : Prop} [Decidable c] {x y : Run α} (hx : c → Keeps P x) (hy : ¬ c → Keeps P y) :
    Keeps P (if c then x else y) := by
  by_cases h : c
  · rw [if_pos h]
    exact hx h
  · rw [if_neg h]
    exact hy h

theorem forM {xs : List α} {f : α → Run PUnit} (h : ∀ a ∈ xs, Keeps P (f a)) :
    Keeps P (xs.forM f) := by
  induction xs with
  | nil => exact pure _
  | cons a xs ih =>
    exact bind (h a List.mem_cons_self) fun _ => ih fun b hb => h b (List.mem_cons_of_mem _ hb)

end Keeps

end Run

/-! ### Taking accounts -/

namespace Loading

variable {l : Ledger} {refs rest : List AccountRef}

/-- Taking accounts one after the other succeeds exactly when the first part does and the rest does on
the accounts that are left. -/
theorem bind_eq_ok {x : Loading α} {f : α → Loading β} {r : β × List AccountRef} :
    (x >>= f) l refs = .ok r ↔ ∃ a rest, x l refs = .ok (a, rest) ∧ f a l rest = .ok r := by
  change (x l refs >>= fun p => f p.1 l p.2) = _ ↔ _
  rw [Verdict.bind_eq_ok]
  simp

/-- What is known of a successful first part, carried to the rest. -/
theorem bind_eq_ok_of {x : Loading α} {f : α → Loading β} {r : β × List AccountRef}
    {P : α → List AccountRef → Prop} (h : (x >>= f) l refs = .ok r)
    (hx : ∀ a rest, x l refs = .ok (a, rest) → P a rest) :
    ∃ a rest, P a rest ∧ f a l rest = .ok r := by
  obtain ⟨a, rest, ha, hrest⟩ := bind_eq_ok.1 h
  exact ⟨a, rest, hx a rest ha, hrest⟩

@[simp] theorem pure_eq_ok {a b : α} :
    (pure a : Loading α) l refs = .ok (b, rest) ↔ b = a ∧ rest = refs := by
  change Except.ok (a, refs) = Except.ok (b, rest) ↔ _
  simp [eq_comm]

@[simp] theorem throw_eq_ok {r : Rejection} {a : α} :
    (throw r : Loading α) l refs = .ok (a, rest) ↔ False := by
  change Except.error r = Except.ok (a, rest) ↔ _
  simp

@[simp] theorem lift_eq_ok {v : Verdict α} {a : α} :
    (v : Loading α) l refs = .ok (a, rest) ↔ v = .ok a ∧ rest = refs := by
  change (v >>= fun b => Except.ok (b, refs)) = _ ↔ _
  rw [Verdict.bind_eq_ok]
  simp only [Except.ok.injEq, Prod.mk.injEq]
  constructor
  · rintro ⟨b, h, rfl, rfl⟩
    exact ⟨h, rfl⟩
  · rintro ⟨h, rfl⟩
    exact ⟨a, h, rfl, rfl⟩

theorem next_eq_ok {ref : AccountRef} : next l refs = .ok (ref, rest) ↔ refs = ref :: rest := by
  cases refs with
  | nil =>
    change Except.error _ = Except.ok _ ↔ _
    simp
  | cons head tail =>
    change Except.ok (head, tail) = Except.ok (ref, rest) ↔ _
    simp

/-- A key is taken if it passes its check. -/
theorem checked_eq_ok {c : AccountRef → Prop} [DecidablePred c] {r : Rejection} {ref : AccountRef} :
    (do let ref ← next; (demand (c ref) r : Verdict Unit); return ref : Loading AccountRef) l refs =
      .ok (ref, rest) ↔ refs = ref :: rest ∧ c ref := by
  simp only [bind_eq_ok, next_eq_ok, lift_eq_ok, demand_eq_ok, pure_eq_ok]
  constructor
  · rintro ⟨_, _, rfl, _, _, ⟨hc, rfl⟩, rfl, rfl⟩
    exact ⟨rfl, hc⟩
  · rintro ⟨rfl, hc⟩
    exact ⟨ref, rest, rfl, (), rest, ⟨hc, rfl⟩, rfl, rfl⟩

theorem signer_eq_ok {ref : AccountRef} :
    signer l refs = .ok (ref, rest) ↔ refs = ref :: rest ∧ ref.isSigner = true :=
  checked_eq_ok

theorem program_eq_ok {k : Key} {ref : AccountRef} :
    program k l refs = .ok (ref, rest) ↔ refs = ref :: rest ∧ ref.key = k :=
  checked_eq_ok

theorem anyTokenProgram_eq_ok {ref : AccountRef} :
    anyTokenProgram l refs = .ok (ref, rest) ↔
      refs = ref :: rest ∧ (ref.key = tokenProgram ∨ ref.key = extendedTokenProgram) :=
  checked_eq_ok

theorem readThe_eq_ok {l' : Ledger} :
    (readThe Ledger : Loading Ledger) l refs = .ok (l', rest) ↔ l' = l ∧ rest = refs := by
  change Except.ok (l, refs) = Except.ok (l', rest) ↔ _
  simp [eq_comm]

theorem read_eq_ok {ref : AccountRef} {missing : CheckError} {a : Account} :
    read ref missing l refs = .ok (a, rest) ↔ l.get? ref.key = some a ∧ rest = refs := by
  simp only [read, bind_eq_ok, readThe_eq_ok]
  constructor
  · rintro ⟨_, _, ⟨rfl, rfl⟩, h⟩
    cases hget : Ledger.get? _ ref.key with
    | none => simp only [hget, throw_eq_ok] at h
    | some b =>
      simp only [hget, pure_eq_ok] at h
      obtain ⟨rfl, rfl⟩ := h
      exact ⟨rfl, rfl⟩
  · rintro ⟨ha, rfl⟩
    refine ⟨l, rest, ⟨rfl, rfl⟩, ?_⟩
    simp only [ha, pure_eq_ok, and_self]

theorem owned_eq_ok {kind : Account → Option α} {missing : CheckError} {x : Loaded α} :
    owned kind missing l refs = .ok (x, rest) ↔ refs = x.ref :: rest ∧
      ∃ a, l.get? x.key = some a ∧ a.owner = programId ∧ kind a = some x.value := by
  simp only [owned, bind_eq_ok, next_eq_ok, read_eq_ok, lift_eq_ok, demand_eq_ok]
  constructor
  · rintro ⟨ref, _, rfl, a, _, ⟨ha, rfl⟩, _, _, ⟨howner, rfl⟩, h⟩
    cases hkind : kind a with
    | none => simp only [hkind, throw_eq_ok] at h
    | some value =>
      simp only [hkind, pure_eq_ok] at h
      obtain ⟨rfl, rfl⟩ := h
      exact ⟨rfl, a, ha, howner, hkind⟩
  · rintro ⟨rfl, a, ha, howner, hkind⟩
    refine ⟨x.ref, rest, rfl, a, rest, ⟨ha, rfl⟩, (), rest, ⟨howner, rfl⟩, ?_⟩
    simp only [hkind, pure_eq_ok, and_true]

/-- An account of the program is taken if it is of the kind that is asked for. -/
theorem owned_eq_ok_of {kind : Account → Option α} {of : α → Account} {missing : CheckError}
    {x : Loaded α} (hkind : ∀ a v, kind a = some v ↔ a = of v)
    (howner : ∀ v, (of v).owner = programId) :
    owned kind missing l refs = .ok (x, rest) ↔
      refs = x.ref :: rest ∧ l.get? x.key = some (of x.value) := by
  refine owned_eq_ok.trans (and_congr_right fun _ => ⟨?_, fun h => ⟨_, h, howner _, ?_⟩⟩)
  · rintro ⟨a, ha, -, hvalue⟩
    rw [ha, (hkind a x.value).1 hvalue]
  · exact (hkind _ _).2 rfl

theorem pool_eq_ok {x : Loaded Pool} : pool l refs = .ok (x, rest) ↔
    refs = x.ref :: rest ∧ l.get? x.key = some (.pool x.value) :=
  owned_eq_ok_of (fun a _ => by cases a <;> simp [Account.asPool?]) fun _ => rfl

theorem config_eq_ok {x : Loaded FeeConfig} : config l refs = .ok (x, rest) ↔
    refs = x.ref :: rest ∧ l.get? x.key = some (.config x.value) :=
  owned_eq_ok_of (fun a _ => by cases a <;> simp [Account.asConfig?]) fun _ => rfl

theorem position_eq_ok {x : Loaded Position} : position l refs = .ok (x, rest) ↔
    refs = x.ref :: rest ∧ l.get? x.key = some (.position x.value) :=
  owned_eq_ok_of (fun a _ => by cases a <;> simp [Account.asPosition?]) fun _ => rfl

theorem oracle_eq_ok {x : Loaded Oracle} : oracle l refs = .ok (x, rest) ↔
    refs = x.ref :: rest ∧ l.get? x.key = some (.oracle x.value) :=
  owned_eq_ok_of (fun a _ => by cases a <;> simp [Account.asOracle?]) fun _ => rfl

theorem hooks_eq_ok {x : Loaded HookRegistry} : hooks l refs = .ok (x, rest) ↔
    refs = x.ref :: rest ∧ l.get? x.key = some (.hooks x.value) :=
  owned_eq_ok_of (fun a _ => by cases a <;> simp [Account.asHooks?]) fun _ => rfl

theorem tickArray_eq_ok {x : Loaded TickArray} : tickArray l refs = .ok (x, rest) ↔
    refs = x.ref :: rest ∧ l.get? x.key = some (.tickArray x.value) :=
  owned_eq_ok_of (fun a _ => by cases a <;> simp [Account.asTickArray?]) fun _ => rfl

/-- A bitmap extension takes one account in any case. -/
theorem extension?_eq_ok {x : Option (Loaded BitmapExtension)}
    (h : extension? l refs = .ok (x, rest)) :
    ∃ ref, refs = ref :: rest ∧ ∀ y ∈ x, l.get? y.key = some (.extension y.value) := by
  cases refs with
  | nil => exact absurd h (by rintro ⟨⟩)
  | cons ref tail =>
    change (if ref.key = programId then (do set tail; return none : Loading _)
      else do return some (← owned Account.asExtension? .accountOwnedByWrongProgram)) l (ref :: tail)
      = _ at h
    split at h
    · obtain ⟨rfl, rfl⟩ := Prod.mk.inj (Except.ok.inj h)
      exact ⟨ref, rfl, by simp⟩
    · obtain ⟨y, _, hy, hx⟩ := bind_eq_ok.1 h
      obtain ⟨rfl, rfl⟩ := pure_eq_ok.1 hx
      obtain ⟨hrefs, a, ha, -, hkind⟩ := owned_eq_ok.1 hy
      refine ⟨y.ref, hrefs, ?_⟩
      cases a <;> simp_all [Account.asExtension?]

theorem tokens_eq_ok {x : Loaded TokenAccount} :
    tokens l refs = .ok (x, rest) ↔ refs = x.ref :: rest ∧ l.get? x.key = some (.token x.value) := by
  simp only [tokens, bind_eq_ok, next_eq_ok, read_eq_ok]
  constructor
  · rintro ⟨ref, _, rfl, a, _, ⟨ha, rfl⟩, h⟩
    cases a <;> simp only [throw_eq_ok, pure_eq_ok] at h
    obtain ⟨rfl, rfl⟩ := h
    exact ⟨rfl, ha⟩
  · rintro ⟨rfl, hx⟩
    exact ⟨x.ref, rest, rfl, .token x.value, rest, ⟨hx, rfl⟩, rfl⟩

theorem mint_eq_ok {x : Loaded Mint} :
    mint l refs = .ok (x, rest) ↔ refs = x.ref :: rest ∧ l.get? x.key = some (.mint x.value) := by
  simp only [mint, bind_eq_ok, next_eq_ok, read_eq_ok]
  constructor
  · rintro ⟨ref, _, rfl, a, _, ⟨ha, rfl⟩, h⟩
    cases a <;> simp only [throw_eq_ok, pure_eq_ok] at h
    obtain ⟨rfl, rfl⟩ := h
    exact ⟨rfl, ha⟩
  · rintro ⟨rfl, hx⟩
    exact ⟨x.ref, rest, rfl, .mint x.value, rest, ⟨hx, rfl⟩, rfl⟩

/-- Taking accounts reads the ledger and changes nothing. -/
theorem run_eq_ok {x : Loading α} {p : α × List AccountRef} {e e' : Execution} :
    run x refs e = .ok (p, e') ↔ x e.ledger refs = .ok p ∧ e' = e := by
  simp only [run, Run.bind_eq_ok, Run.ledger_eq_ok]
  constructor
  · rintro ⟨_, _, ⟨rfl, rfl⟩, h⟩
    exact Run.lift_eq_ok.1 h
  · rintro ⟨h, rfl⟩
    exact ⟨_, _, ⟨rfl, rfl⟩, Run.lift_eq_ok.2 ⟨h, rfl⟩⟩

theorem run_bind_eq_ok {x : Loading α} {f : α × List AccountRef → Run β} {b : β} {e e' : Execution} :
    (run x refs >>= f) e = .ok (b, e') ↔
      ∃ a rest, x e.ledger refs = .ok (a, rest) ∧ f (a, rest) e = .ok (b, e') := by
  simp [Run.bind_eq_ok, run_eq_ok, and_assoc]

end Loading

end Clmm
