import KernelTyping.ElementType.Promotion

/-!
# KernelTyping.Builtin — the functions known for every target

Builtins choose an overload for the types of their arguments: the arguments promote to a common
numeric type, and the family of the function settles at which type it computes and what it returns.
-/

namespace KernelTyping

/-- A function that every target has. -/
inductive Builtin where
  | abs | sqrt | sin | cos | tan | exp | log | log10 | floor | ceil
  | pow | fmod | min | max
  | real | imag | conj
  deriving DecidableEq

namespace Builtin

def name : Builtin → String
  | abs => "abs"
  | sqrt => "sqrt"
  | sin => "sin"
  | cos => "cos"
  | tan => "tan"
  | exp => "exp"
  | log => "log"
  | log10 => "log10"
  | floor => "floor"
  | ceil => "ceil"
  | pow => "pow"
  | fmod => "fmod"
  | min => "min"
  | max => "max"
  | real => "real"
  | imag => "imag"
  | conj => "conj"

def all : List Builtin :=
  [abs, sqrt, sin, cos, tan, exp, log, log10, floor, ceil, pow, fmod, min, max, real, imag, conj]

theorem mem_all (f : Builtin) : f ∈ all := by cases f <;> decide

/-- The builtin of that name. -/
def ofName? (s : String) : Option Builtin := all.find? (·.name == s)

def arity : Builtin → Nat
  | pow | fmod | min | max => 2
  | _ => 1

/-- How a builtin computes. -/
inductive Family where
  /-- In floating point, real or complex. -/
  | analytic
  /-- In real floating point. -/
  | rounding
  /-- In the common type, which must be real. -/
  | ordering
  /-- In the common type; the result is its real part. -/
  | component
  /-- In the common type. -/
  | conjugation

def family : Builtin → Family
  | sqrt | sin | cos | tan | exp | log | log10 | pow => .analytic
  | floor | ceil | fmod => .rounding
  | min | max => .ordering
  | abs | real | imag => .component
  | conj => .conjugation

/-- Floating point for an integer type: a double. -/
def floating (s : Scalar) : Scalar := if s.isIntegral then .float64 else s

/-- The scalar type the function computes in and the one it returns, for arguments of the common
type `s`. -/
def compute (f : Builtin) (s : Scalar) : Except Fault (Scalar × Scalar) :=
  match f.family with
  | .analytic => .ok (floating s, floating s)
  | .rounding =>
    if s.isComplex then .error (.notForComplex f.name (.scalar s))
    else .ok (floating s, floating s)
  | .ordering =>
    if s.isComplex then .error (.notForComplex f.name (.scalar s)) else .ok (s, s)
  | .component => .ok (s, s.realPart)
  | .conjugation => .ok (s, s)

/-- The common type of the arguments, which must be numeric. -/
def commonType (f : Builtin) (first : ElementType) (rest : List ElementType) :
    Except Fault Scalar := do
  let common ← rest.foldlM ElementType.promote first
  match common with
  | .scalar .bool => .error (.unsupportedArgument f.name common)
  | .scalar s => .ok s
  | .struct _ _ | .handle _ => .error (.unsupportedArgument f.name common)

/-- The overload for the types of the arguments; none if some type is not known. -/
def specialize (f : Builtin) (args : List (Option ElementType)) : Except Fault (Option Signature) :=
  if args.length ≠ f.arity then .error (.functionArity f.name f.arity args.length)
  else
    match args.mapM id with
    | none | some [] => .ok none
    | some (first :: rest) => do
      let common ← f.commonType first rest
      let (arg, result) ← f.compute common
      return some (.ofLists (List.replicate f.arity (.scalar arg)) [.scalar result])

end Builtin

end KernelTyping
