/-!
# KernelTyping.Double.Basic — double precision constants, known by their bits

A `Double` is the 64 bits of an IEEE double.  Two doubles are equal if their bits are: a NaN equals
itself, and `0.0` differs from `-0.0`.  `Double.value` reads the bits as a NaN, an infinity or an
exact dyadic number; nothing here computes in floating point.
-/

namespace KernelTyping

/-- A double, given by its bits. -/
structure Double where
  bits : UInt64
  deriving DecidableEq

/-- The number `mantissa * 2 ^ exponent`, as a double holds it. -/
structure Dyadic where
  mantissa : Nat
  exponent : Int
  /-- The next smaller double is only half as far away as the next larger one. -/
  narrowBelow : Bool

namespace Double

/-- What a double stands for, its sign aside. -/
inductive Magnitude where
  | nan
  | infinite
  | finite (m : Dyadic)

/-- The sign bit. -/
def isNegative (x : Double) : Bool := x.bits >>> 63 == 1

/-- The eleven exponent bits. -/
def exponentField (x : Double) : Nat := (x.bits >>> 52 &&& 0x7ff).toNat

/-- The low 52 bits. -/
def fraction (x : Double) : Nat := (x.bits &&& 0xfffffffffffff).toNat

/-- The magnitude the bits stand for: exponent field 2047 is no number, field 0 is subnormal, and
any other field puts a leading one before the fraction. -/
def magnitude (x : Double) : Magnitude :=
  if x.exponentField = 2047 then
    if x.fraction = 0 then .infinite else .nan
  else if x.exponentField = 0 then
    .finite ⟨x.fraction, -1074, false⟩
  else
    .finite ⟨1 <<< 52 + x.fraction, (x.exponentField : Int) - 1075,
      x.fraction = 0 && 1 < x.exponentField⟩

end Double

namespace Dyadic

/-- The exponent of the leading bit. -/
def topExponent (m : Dyadic) : Int := (Nat.log2 m.mantissa : Int) + m.exponent

/-- The number is a multiple of `2 ^ unit`. -/
def isMultipleOf (m : Dyadic) (unit : Int) : Bool :=
  unit ≤ m.exponent || m.mantissa % (1 <<< (unit - m.exponent).toNat) = 0

/-- The number is a single precision number: zero, or no larger than the exponent range allows and
a multiple of the last place of its 24 bits (of `2 ^ -149` in the subnormal range). -/
def fitsSingle (m : Dyadic) : Bool :=
  m.mantissa = 0 || (m.topExponent ≤ 127 && m.isMultipleOf (max (m.topExponent - 23) (-149)))

end Dyadic

/-- Rounding to single precision changes nothing.  A NaN is never equal to what it is rounded
to. -/
def Double.fitsSingle (x : Double) : Bool :=
  match x.magnitude with
  | .nan => false
  | .infinite => true
  | .finite m => m.fitsSingle

end KernelTyping
