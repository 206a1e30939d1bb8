import Clmm.Proofs.ChangeSucceeds

/-!
# Clmm.Proofs.FailedChange

**A change of liquidity that fails leaves no trace** (`failed_change_leaves_no_trace`). Writing a planned
change inverts up to two bits of the bitmap between its other writes, and inverting a bit may fail. But
whatever it may fail for was checked when the change was planned (`ChangePlan.exists_commit`), so a
change of liquidity fails only while it is planned, before its first write. Nothing is asked of the book:
its arrays may be of another spacing, miscounted or out of place.
-/

namespace Clmm

variable {b b' : Book} {delta : Int} {limits : Pair Nat} {n : Nat} {e : Failure}

/-- A change fails exactly if it cannot be planned. -/
theorem modifyPosition_eq_error :
    modifyPosition delta limits b = .error e b' ↔
      ChangePlan.make b delta limits = .error e ∧ b' = b := by
  simp only [modifyPosition, Update.bind_eq_error, Update.get_eq_error, Update.get_eq_ok,
    Update.lift_eq_error, Update.lift_eq_ok, Update.pure_eq_error, false_or]
  constructor
  · rintro ⟨_, _, ⟨rfl, rfl⟩, hmake | ⟨plan, _, ⟨hmake, rfl⟩, hcommit | ⟨_, _, -, hfalse⟩⟩⟩
    · exact hmake
    · -- the plan was made, so its commit succeeds
      obtain ⟨t, hok⟩ := ChangePlan.exists_commit hmake
      rw [hok] at hcommit
      cases hcommit
    · exact hfalse.elim
  · intro hmake
    exact ⟨b, b, ⟨rfl, rfl⟩, Or.inl hmake⟩

theorem eq_of_increaseLiquidity_error (h : increaseLiquidity n limits b = .error e b') : b' = b := by
  simp only [increaseLiquidity, Update.bind_eq_error, Update.lift_eq_error, Update.lift_eq_ok,
    Update.pure_eq_error, modifyPosition_eq_error] at h
  rcases h with ⟨-, rfl⟩ | ⟨_, _, ⟨-, rfl⟩, ⟨-, rfl⟩ | ⟨_, _, ⟨-, rfl⟩, ⟨-, rfl⟩ | ⟨_, _, -, hfalse⟩⟩⟩
  · rfl
  · rfl
  · rfl
  · exact hfalse.elim

theorem eq_of_decreaseLiquidity_error (h : decreaseLiquidity n limits b = .error e b') : b' = b := by
  simp only [decreaseLiquidity, Update.bind_eq_error, Update.get_eq_error, Update.get_eq_ok,
    Update.lift_eq_error, Update.lift_eq_ok, Update.modify_eq_error, Update.modify_eq_ok,
    Update.pure_eq_error, modifyPosition_eq_error, false_or] at h
  obtain ⟨_, _, ⟨rfl, rfl⟩, ⟨-, rfl⟩ | ⟨_, _, ⟨-, rfl⟩, ⟨-, rfl⟩ | ⟨_, _, ⟨-, rfl⟩, hrest⟩⟩⟩ := h
  · rfl
  · rfl
  · -- after the change there is nothing left to fail
    obtain ⟨-, rfl⟩ | ⟨_, _, -, _, _, -, _, _, -, hfalse⟩ := hrest
    · rfl
    · exact hfalse.elim

/-- **A change of liquidity that fails leaves no trace**, whatever the book: the pool, the position, the
tick arrays and the extension are as they were. And once a change is planned, writing it cannot fail, so
neither can a bit that it inverts on the way. -/
theorem failed_change_leaves_no_trace (b : Book) :
    (∀ n maxima e b', increaseLiquidity n maxima b = .error e b' → b' = b) ∧
    (∀ n minima e b', decreaseLiquidity n minima b = .error e b' → b' = b) ∧
    ∀ delta limits plan, ChangePlan.make b delta limits = .ok plan →
      ∃ b', plan.commit b = .ok () b' :=
  ⟨fun _ _ _ _ => eq_of_increaseLiquidity_error, fun _ _ _ _ => eq_of_decreaseLiquidity_error,
    fun _ _ _ => ChangePlan.exists_commit⟩

namespace Market

/-- Two arrays of a new market without the extension. The bit of the second lies beyond the native span,
and the deposit would invert both. -/
theorem failed_change_leaves_no_trace_hidden : ∃ m total b',
    sample 1 0 [.setUpArray 0 0, .setUpArray 30720 0] = .ok (m, total) ∧
    increaseLiquidity 1000000 ⟨1000000, 1000000⟩
      (m.book (Position.zeroed.setUp 0 0 m.key 10 30730) ⟨[0, 30720], false⟩) =
        .error (.refused .bitmapExtensionNotLoaded) b' ∧
    b' = m.book (Position.zeroed.setUp 0 0 m.key 10 30730) ⟨[0, 30720], false⟩ := by
  obtain ⟨m, total, hsample, hrun⟩ := exists_of_sample (P := fun x =>
      failsWith (fun e (_ : Book) => decide (e = .refused .bitmapExtensionNotLoaded))
        (increaseLiquidity 1000000 ⟨1000000, 1000000⟩
          (x.1.book (Position.zeroed.setUp 0 0 x.1.key 10 30730) ⟨[0, 30720], false⟩)))
    (show (sample 1 0 [.setUpArray 0 0, .setUpArray 30720 0]).toOption.any _ = true by decide +kernel)
  obtain ⟨e, b', hfails, hreason⟩ := exists_of_failsWith hrun
  obtain rfl := of_decide_eq_true hreason
  exact ⟨m, total, b', hsample, hfails, (failed_change_leaves_no_trace _).1 _ _ _ _ hfails⟩

end Market

end Clmm
