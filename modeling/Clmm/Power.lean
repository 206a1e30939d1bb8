/-!
# Clmm.Power

**Powers of whole numbers.** The widths of the program's numbers are bounds such as `2 ^ 64`. They are
powers of the core library, also where a module knows of the powers in every monoid: the same text
then is the same term, whatever a module imports.
-/

namespace Clmm

@[default_instance high + 1]
instance (priority := high) intPower : Pow Int Nat := instPowNat

/-- After the powers of integers, so that a power of numerals alone is a natural number. -/
@[default_instance high + 1]
instance (priority := high) natPower : Pow Nat Nat := instPowNat

end Clmm
