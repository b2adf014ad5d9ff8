import KernelTyping.Target.Basic
import KernelTyping.ElementType.Promotion

/-!
# KernelTyping.Target.CLike — the default target

The matcher `c_symbols` knows the numeric constants of the C headers, and `c_math` the functions of
the mathematical library on real floating point arguments.
-/

namespace KernelTyping.Target

/-- The type of a constant of the C headers. -/
def cSymbolType? (name : String) : Option Scalar :=
  if name ∈ ["M_PI", "M_E", "M_SQRT2", "M_LN2", "HUGE_VAL", "DBL_MAX", "DBL_EPSILON"] then
    some .float64
  else if name ∈ ["INFINITY", "NAN", "FLT_MAX", "FLT_EPSILON"] then some .float32
  else if name ∈ ["INT_MAX", "INT_MIN"] then some .int32
  else none

/-- Constants are spelled by their own name. -/
def cSymbol? (name : String) : Option Symbol :=
  (cSymbolType? name).map fun s => ⟨.scalar s, name⟩

/-- The number of arguments of a function of the mathematical library. -/
def cMathArity? (name : String) : Option Nat :=
  if name ∈ ["fabs", "sqrt", "sin", "cos", "tan", "asin", "acos", "atan", "sinh", "cosh", "tanh",
      "exp", "log", "log10", "floor", "ceil", "trunc"] then
    some 1
  else if name ∈ ["pow", "fmod", "fmin", "fmax", "atan2"] then some 2
  else none

/-- A function of the mathematical library on real floating point arguments; in single precision
its name ends in `f`. -/
def cMath? (name : String) (args : List ElementType) : Option Overload := do
  let arity ← cMathArity? name
  guard (args.length = arity ∧ args.all ElementType.isFloat)
  let type ← match args.foldlM ElementType.promote (args.headD .float32) with
    | .ok type => some type
    | .error _ => none
  let spelling := if type = .float32 then name ++ "f" else name
  return ⟨spelling, List.replicate arity type, [type]⟩

/-- The default target. -/
def cLike : Target where
  symbol? matcher _ name := if matcher = "c_symbols" then cSymbol? name else none
  overload? matcher _ name args := if matcher = "c_math" then cMath? name args else none

end KernelTyping.Target
