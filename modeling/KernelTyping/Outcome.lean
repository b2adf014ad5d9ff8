import KernelTyping.Fault

/-!
# KernelTyping.Outcome — a result, a fault, or no answer within the fuel

Inference calls itself on the kernels that a kernel calls, and it repeats its passes until nothing
changes, so it runs on fuel.  Running out of fuel is told apart from every fault: it is not an
answer.
-/

namespace KernelTyping

/-- Why there is no result. -/
inductive Halt where
  | fault (cause : Fault)
  /-- The fuel was used up before an answer was found. -/
  | exhausted

/-- A result, a fault, or no answer. -/
abbrev Outcome := Except Halt

/-- What can fail has an answer without any fuel. -/
instance : MonadLift (Except Fault) Outcome where
  monadLift
    | .ok a => .ok a
    | .error f => .error (.fault f)

end KernelTyping
