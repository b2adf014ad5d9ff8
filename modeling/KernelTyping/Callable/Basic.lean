import KernelTyping.Builtin
import KernelTyping.Target.Basic

/-!
# KernelTyping.Callable.Basic — what a call can refer to

A callable is a builtin, a function of the target matched at fixed types, or another kernel.  It is
generic until a signature is recorded for it.
-/

namespace KernelTyping

/-- What stands behind a callable. -/
inductive Implementation where
  /-- A function with an overload for every choice of types it supports. -/
  | builtin (function : Builtin)
  /-- A function of the target, found by the matcher of that name. -/
  | matched (matcher spelling : String)
  /-- Another kernel; to specialize it is to infer its types. -/
  | kernel (kernel : Kernel)
  deriving DecidableEq

structure Callable where
  /-- The name that the names of specializations start with. -/
  name : String
  /-- The recorded signature; a callable without one is generic. -/
  signature : Option Signature
  implementation : Implementation
  deriving DecidableEq

namespace Callable

/-- The generic callable of a builtin. -/
def ofBuiltin (f : Builtin) : Callable := ⟨f.name, none, .builtin f⟩

/-- The generic callable of a kernel. -/
def ofKernel (k : Kernel) : Callable := ⟨k.name, none, .kernel k⟩

/-- The callable of a function that a matcher of the target found. -/
def ofOverload (name matcher : String) (o : Overload) : Callable :=
  ⟨name, some (.ofLists o.args o.results), .matched matcher o.spelling⟩

/-- The types of the results, once they are known. -/
def results? (c : Callable) : Option (List ElementType) :=
  match c.signature.map Signature.results with
  | none | some [] => none
  | some (type :: types) => some (type :: types)

/-- The kernel behind the callable. -/
def kernel? (c : Callable) : Option Kernel :=
  match c.implementation with
  | .kernel k => some k
  | .builtin _ | .matched _ _ => none

/-- The entries of the table that the callable refers to. -/
def callees (c : Callable) : List String :=
  match c.kernel? with
  | some k => k.calledEntries.toList
  | none => []

def text (c : Callable) : String :=
  let subject := match c.implementation with
    | .builtin _ => c.name
    | .matched _ spelling => s!"{c.name} ({spelling})"
    | .kernel _ => s!"kernel {c.name}"
  match c.signature with
  | none => subject ++ ": <generic>"
  | some signature => s!"{subject}: {signature.text}"

end Callable

end KernelTyping
