import KernelTyping.Double.Basic

/-!
# KernelTyping.Double.Shortest — the fewest digits that read back

The reals that round to a given double form an interval around it, with its ends included when the
mantissa is even.  The shortest decimal is a point of the coarsest power-of-ten grid that meets the
interval; of two such points it is the nearer, and of two equally near ones the larger.
`Dyadic.shortest` finds it in exact integer arithmetic: if a grid meets the interval, then one of
the two grid points next to the number lies in it.
-/

namespace KernelTyping

/-- The number `digits * 10 ^ exponent`. -/
structure Decimal where
  digits : Nat
  exponent : Int
  deriving DecidableEq

namespace Dyadic

/-- The power of a base where the exponent is positive, and one elsewhere. -/
def power (base : Nat) (exponent : Int) : Nat := base.pow exponent.toNat

/-- Compares `d * 10 ^ e` with `a * 2 ^ b` by cross multiplication. -/
def compareScaled (d : Nat) (e : Int) (a : Nat) (b : Int) : Ordering :=
  compare (d * power 10 e * power 2 (-b)) (a * power 2 b * power 10 (-e))

/-- The decimal lies in the interval of reals that round to the number.  In units of a quarter of
the last place the number is `4 * mantissa`, the upper end two units away, and the lower end two
units or one. -/
def readsBack (m : Dyadic) (x : Decimal) : Bool :=
  let low := compareScaled x.digits x.exponent (4 * m.mantissa - (if m.narrowBelow then 1 else 2))
    (m.exponent - 2)
  let high := compareScaled x.digits x.exponent (4 * m.mantissa + 2) (m.exponent - 2)
  if m.mantissa % 2 = 0 then low.isGE && high.isLE else low.isGT && high.isLT

/-- The largest grid point of `10 ^ e` that is no larger than the number. -/
def floorOnGrid (m : Dyadic) (e : Int) : Nat :=
  m.mantissa * power 2 m.exponent * power 10 (-e) / (power 10 e * power 2 (-m.exponent))

/-- The point of the grid of `10 ^ e` to write for the number, if one reads back. -/
def onGrid? (m : Dyadic) (e : Int) : Option Decimal :=
  let n := m.floorOnGrid e
  match m.readsBack ⟨n, e⟩, m.readsBack ⟨n + 1, e⟩ with
  | true, true =>
    -- the sum of the two neighbours against twice the number
    if (compareScaled (2 * n + 1) e (2 * m.mantissa) m.exponent).isGT then some ⟨n, e⟩
    else some ⟨n + 1, e⟩
  | true, false => some ⟨n, e⟩
  | false, true => some ⟨n + 1, e⟩
  | false, false => none

/-- An exponent `e` for which the number is below `10 ^ e` (and not below `10 ^ (e - 3)`), from the
binary logarithm of the number and `30103 / 100000`, which is just above the logarithm of two. -/
def decimalBound (m : Dyadic) : Int := (m.topExponent + 1) * 30103 / 100000 + 1

/-- The number itself in decimal. -/
def exact (m : Dyadic) : Decimal :=
  ⟨m.mantissa * power 2 m.exponent * power 5 (-m.exponent), min m.exponent 0⟩

/-- The fewest digits that read back to a number other than zero.  Seventeen digits always do, so
that twenty grids below the bound are enough. -/
def shortest (m : Dyadic) : Decimal :=
  ((List.range 20).findSome? fun i : Nat => m.onGrid? (m.decimalBound - i)).getD m.exact

end Dyadic

end KernelTyping
