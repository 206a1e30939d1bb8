import Clmm.Token
import Mathlib.Tactic.Common

/-!
# Clmm.Proofs.Heading

**What lies ahead of a walk.** Downward, a walk at tick `t` still has tick `t` itself ahead of it;
upward, only the ticks above. Having crossed tick `s`, a downward walk stands at `s - 1` and an upward
one at `s`, and in both cases has ahead of it exactly the ticks beyond `s`. These few notions let
every statement about walks be said once for both directions.
-/

namespace Clmm

namespace Direction

/-- Tick `s` is still to be met by a walk at tick `t`. -/
def Ahead (d : Direction) (t s : Int) : Prop :=
  match d with
  | down => s ≤ t
  | up => t < s

/-- Tick `s'` lies strictly further on than `s`. -/
def Beyond (d : Direction) (s s' : Int) : Prop :=
  match d with
  | down => s' < s
  | up => s < s'

/-- The tick at which a walk stands after crossing tick `s`. -/
def arrive (d : Direction) (s : Int) : Int :=
  match d with
  | down => s - 1
  | up => s

/-- The price `b` lies at or beyond `a`. -/
def Leads (d : Direction) (a b : Nat) : Prop :=
  match d with
  | down => b ≤ a
  | up => a ≤ b

instance (d : Direction) (t s : Int) : Decidable (d.Ahead t s) :=
  match d with
  | down => inferInstanceAs (Decidable (s ≤ t))
  | up => inferInstanceAs (Decidable (t < s))

/-- Of the ticks in `P`, `s` is the first one that a walk at tick `t` meets. -/
structure Nearest (d : Direction) (P : Int → Prop) (t s : Int) : Prop where
  mem : P s
  ahead : d.Ahead t s
  first : ∀ s', P s' → d.Ahead t s' → s' = s ∨ d.Beyond s s'

variable {d : Direction} {s t u : Int}

theorem ahead_arrive : d.Ahead (d.arrive s) t ↔ d.Beyond s t := by
  cases d
  · exact Int.le_sub_one_iff
  · exact Iff.rfl

theorem Beyond.trans (h : d.Beyond s t) (h' : d.Beyond t u) : d.Beyond s u := by
  cases d <;> simp only [Beyond] at * <;> omega

theorem Beyond.ne (h : d.Beyond s t) : t ≠ s := by
  cases d <;> simp only [Beyond] at * <;> omega

theorem Ahead.of_beyond (h : d.Ahead t s) (h' : d.Beyond s u) : d.Ahead t u := by
  cases d <;> simp only [Ahead, Beyond] at * <;> omega

theorem not_beyond_self : ¬ d.Beyond s s := fun h => h.ne rfl

theorem eq_or_beyond_or_beyond (d : Direction) (s t : Int) :
    t = s ∨ d.Beyond s t ∨ d.Beyond t s := by
  cases d <;> simp only [Beyond] <;> omega

@[simp] theorem Leads.refl (d : Direction) (a : Nat) : d.Leads a a := by
  cases d <;> exact Nat.le_refl a

theorem Leads.trans {a b c : Nat} (h : d.Leads a b) (h' : d.Leads b c) : d.Leads a c := by
  cases d
  · exact Nat.le_trans h' h
  · exact Nat.le_trans h h'

theorem Leads.antisymm {a b : Nat} (h : d.Leads a b) (h' : d.Leads b a) : a = b := by
  cases d
  · exact Nat.le_antisymm h' h
  · exact Nat.le_antisymm h h'

theorem Leads.total (d : Direction) (a b : Nat) : d.Leads a b ∨ d.Leads b a := by
  cases d
  · exact Nat.le_total b a
  · exact Nat.le_total a b

end Direction

end Clmm
