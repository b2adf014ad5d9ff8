import KernelTyping.Expansion
import KernelTyping.Table.Basic

/-!
# KernelTyping.Completeness — nothing left open

A kernel is complete with respect to a table if every call in its expansion refers to an entry of
the table, and if every variable has a type.
-/

namespace KernelTyping

/-- What is wrong with a call in an instruction, if it refers to no entry of the table. -/
def Table.callFault? (t : Table) (kernel instruction : String) : Expr → Option Fault
  | .call (.bare name) _ _ => some (.unresolvedInInstruction name instruction kernel)
  | .call (.entry name) _ _ =>
    if t.contains name then none else some (.noEntryInInstruction name instruction kernel)
  | _ => none

namespace Kernel

/-- Every call refers to an entry of the table; the first that does not is the fault. -/
def checkFunctionsResolved (k : Kernel) (table : Table) : Except Fault Unit := do
  let expanded ← k.expand
  let found := expanded.instructions.findSome? fun i =>
    (i.expressions.flatMap Expr.calls).findSome? (table.callFault? k.name i.id)
  match found with
  | some f => throw f
  | none => return ()

/-- Every variable has a type; the first that does not is the fault. -/
def checkVariablesTyped (k : Kernel) : Except Fault Unit :=
  match k.declarations.find? (!·.dtype.isKnown) with
  | some v => .error (.undetermined v.name [] k.name)
  | none => .ok ()

end Kernel

end KernelTyping
