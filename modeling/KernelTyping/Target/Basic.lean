import KernelTyping.Kernel

/-!
# KernelTyping.Target.Basic — what a target knows by name

A target offers named constants and functions through matchers.  A kernel lists the names of the
matchers it consults, and the first one that answers decides; a `Target` gives those names their
meaning.
-/

namespace KernelTyping

/-- A named constant of the target. -/
structure Symbol where
  type : ElementType
  spelling : String
  deriving DecidableEq

/-- A function of the target that takes and returns values of given types. -/
structure Overload where
  spelling : String
  args : List ElementType
  results : List ElementType
  deriving DecidableEq

/-- The meaning of the names of matchers. -/
structure Target where
  /-- What the symbol matcher of a given name says about a name in a kernel. -/
  symbol? : String → Kernel → String → Option Symbol
  /-- What the function matcher of a given name says about a function name at given types. -/
  overload? : String → Kernel → String → List ElementType → Option Overload

namespace Kernel

/-- The target's constant of that name: what the first matcher that knows it says. -/
def symbol? (k : Kernel) (target : Target) (name : String) : Option Symbol :=
  k.symbolMatchers.findSome? fun matcher => target.symbol? matcher k name

/-- The target's function of that name at these types, with the name of the first matcher that
knows it. -/
def overload? (k : Kernel) (target : Target) (name : String) (args : List ElementType) :
    Option (String × Overload) :=
  k.functionMatchers.findSome? fun matcher =>
    (target.overload? matcher k name args).map fun o => (matcher, o)

end Kernel

end KernelTyping
