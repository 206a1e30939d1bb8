/-!
# Clmm.Token

**The two tokens of a pool and the two ways a swap can go.** A pool holds token 0 and token 1. Its
price is the amount of token 1 per token 0, so paying token 0 in lowers the price and paying token 1
in raises it: the direction of a swap and its input token determine each other.
-/

namespace Clmm

/-- One of the two tokens of a pool. -/
inductive Token
  | zero
  | one
deriving DecidableEq, Repr, Inhabited

/-- A quantity for each of the two tokens. -/
structure Pair (α : Type) where
  zero : α
  one : α
deriving DecidableEq, Repr, Inhabited

/-- Where the price moves in a swap. -/
inductive Direction
  /-- Token 0 is paid in and the price falls. -/
  | down
  /-- Token 1 is paid in and the price rises. -/
  | up
deriving DecidableEq, Repr, Inhabited

/-- Which side of a swap is fixed by the request. -/
inductive SwapMode
  | exactIn
  | exactOut
deriving DecidableEq, Repr, Inhabited

namespace Token

/-- The token on the other side. -/
def other : Token → Token
  | zero => one
  | one => zero

@[simp] theorem other_other (t : Token) : t.other.other = t := by cases t <;> rfl

end Token

namespace Pair

variable {α : Type}

/-- The quantity of one token. -/
def get (p : Pair α) : Token → α
  | .zero => p.zero
  | .one => p.one

/-- Replaces the quantity of one token. -/
def set (p : Pair α) : Token → α → Pair α
  | .zero, a => { p with zero := a }
  | .one, a => { p with one := a }

/-- The same quantity for both tokens. -/
def both (a : α) : Pair α := ⟨a, a⟩

/-- The pair of the quantities `f` gives for each token. -/
def ofFn (f : Token → α) : Pair α := ⟨f .zero, f .one⟩

@[simp] theorem get_zero (p : Pair α) : p.get .zero = p.zero := rfl

@[simp] theorem get_one (p : Pair α) : p.get .one = p.one := rfl

@[simp] theorem get_both (a : α) (t : Token) : (both a).get t = a := by cases t <;> rfl

@[simp] theorem get_ofFn (f : Token → α) (t : Token) : (ofFn f).get t = f t := by
  cases t <;> rfl

@[simp] theorem get_set_same (p : Pair α) (t : Token) (a : α) : (p.set t a).get t = a := by
  cases t <;> rfl

@[simp] theorem get_set_other (p : Pair α) (t : Token) (a : α) :
    (p.set t.other a).get t = p.get t := by
  cases t <;> rfl

@[simp] theorem set_set (p : Pair α) (t : Token) (a b : α) : (p.set t a).set t b = p.set t b := by
  cases t <;> rfl

@[simp] theorem set_get (p : Pair α) (t : Token) : p.set t (p.get t) = p := by
  cases t <;> rfl

end Pair

namespace Direction

/-- The token paid into the pool. -/
def input : Direction → Token
  | down => .zero
  | up => .one

/-- The token paid out of the pool. -/
def output (d : Direction) : Token := d.input.other

/-- The opposite direction. -/
def flip : Direction → Direction
  | down => up
  | up => down

@[simp] theorem input_flip (d : Direction) : d.flip.input = d.output := by cases d <;> rfl

/-- A token is either paid in or paid out. -/
theorem eq_input_or_eq_output (d : Direction) (x : Token) : x = d.input ∨ x = d.output := by
  cases d <;> cases x <;> simp [input, output, Token.other]

@[simp] theorem get_output_set_input {α : Type} (d : Direction) (p : Pair α) (a : α) :
    (p.set d.input a).get d.output = p.get d.output := by
  cases d <;> rfl

@[simp] theorem get_input_set_output {α : Type} (d : Direction) (p : Pair α) (a : α) :
    (p.set d.output a).get d.input = p.get d.input := by
  cases d <;> rfl

end Direction

end Clmm
