import Clmm.Ledger.Account

/-!
# Clmm.Ledger.State

**The ledger**: which account lives at which key, and what time it is. A key occurs at most once, and
there is nothing to a key that does not occur: such an account belongs to the system program, like a
wallet, but has nothing to pay with.
-/

namespace Clmm

/-- The accounts at their keys, and the clock. -/
structure Ledger where
  accounts : List (Key × Account)
  /-- Seconds since the epoch. -/
  time : Int
deriving DecidableEq

namespace Ledger

/-- The account at a key. -/
def get? (l : Ledger) (k : Key) : Option Account :=
  (l.accounts.find? (·.1 = k)).map (·.2)

/-- Puts an account into a list, in place of one at the same key. -/
def insert (k : Key) (a : Account) : List (Key × Account) → List (Key × Account)
  | [] => [(k, a)]
  | (j, b) :: rest => if j = k then (k, a) :: rest else (j, b) :: insert k a rest

/-- Writes the account at a key. -/
def put (l : Ledger) (k : Key) (a : Account) : Ledger := { l with accounts := insert k a l.accounts }

/-- Removes the account at a key. -/
def remove (l : Ledger) (k : Key) : Ledger :=
  { l with accounts := l.accounts.filter (·.1 ≠ k) }

/-- The program that owns a key. -/
def ownerOf (l : Ledger) (k : Key) : Key := ((l.get? k).map Account.owner).getD systemProgram

/-- The time as an unsigned number. -/
def timestamp (l : Ledger) : Nat := (l.time % 2 ^ 64).toNat

/-- The ledger with the administrator's wallet and two users' wallets. -/
def initial : Ledger :=
  { accounts := [(adminKey, .wallet), (Key.ofByte 0x10, .wallet), (Key.ofByte 0x11, .wallet)]
    time := 0 }

theorem get?_insert_self (k : Key) (a : Account) (xs : List (Key × Account)) :
    ((insert k a xs).find? (·.1 = k)).map (·.2) = some a := by
  induction xs with
  | nil => simp [insert]
  | cons x xs ih =>
    obtain ⟨j, b⟩ := x
    by_cases h : j = k
    · simp [insert, h]
    · simpa [insert, h] using ih

theorem get?_insert_ne {k j : Key} (h : j ≠ k) (a : Account) (xs : List (Key × Account)) :
    ((insert k a xs).find? (·.1 = j)).map (·.2) = (xs.find? (·.1 = j)).map (·.2) := by
  induction xs with
  | nil => simp [insert, Ne.symm h]
  | cons x xs ih =>
    obtain ⟨i, b⟩ := x
    by_cases hi : i = k
    · subst hi
      simp [insert, Ne.symm h]
    · by_cases hj : i = j
      · subst hj
        simp [insert, hi]
      · simpa [insert, hi, hj] using ih

/-- What was written is read back. -/
@[simp] theorem get?_put_self (l : Ledger) (k : Key) (a : Account) : (l.put k a).get? k = some a :=
  get?_insert_self k a l.accounts

/-- Writing at one key leaves the others alone. -/
theorem get?_put_ne (l : Ledger) {k j : Key} (h : j ≠ k) (a : Account) :
    (l.put k a).get? j = l.get? j :=
  get?_insert_ne h a l.accounts

/-- What there is to see at a key: a wallet shows nothing. -/
def visible? (l : Ledger) (k : Key) : Option Account :=
  match l.get? k with
  | some .wallet => none
  | a => a

/-- The keys at which the second ledger shows something else than the first, with what it shows. -/
def changes (before after : Ledger) : List (Key × Option Account) :=
  let keys := (before.accounts.map (·.1) ++ after.accounts.map (·.1)).eraseDups
  (keys.filter fun k => before.visible? k ≠ after.visible? k).map fun k => (k, after.visible? k)

/-! ### Writing accounts from outside

These stand for what happened on the ledger before and beside the program's instructions. -/

/-- Sets the clock. -/
def setTime (l : Ledger) (time : Int) : Ledger := { l with time }

/-- Writes an account with tokens of an existing mint. It belongs to the program of the mint and
carries what the mint requires. -/
def writeTokens (l : Ledger) (k mint holder : Key) (amount : Nat) : Ledger :=
  match l.get? mint with
  | some (.mint m) =>
    l.put k (.token ⟨m.program, mint, holder, amount, m.accountExtension⟩)
  | _ => l

end Ledger

end Clmm
