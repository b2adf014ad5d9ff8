import KernelTyping.Callable.Basic
import KernelTyping.Outcome
import KernelTyping.Table.Basic

/-!
# KernelTyping.Callable.Specialization — choosing a signature for a call site

`Callable.specialize` records a signature for the types a call site passes: a builtin chooses an
overload, a matched function is matched again, and a kernel has its types inferred with the passed
types filled in.  As long as too little is known the callable stays as it is.  A callable that has a
signature keeps it: `checkOverwrite` refuses a call site that passes other types.
-/

namespace KernelTyping

/-! ### Call sites against a recorded signature -/

/-- A recorded type takes a passed one: it is cast safely, or unsigned takes signed of the same
width. -/
def ElementType.accepts (recorded passed : ElementType) : Bool :=
  match recorded, passed with
  | scalar .uint32, scalar .int32 | scalar .uint64, scalar .int64 => true
  | _, _ => castsSafely passed recorded

/-- One slot of a call site against the recorded signature. -/
def Signature.checkSlot (s : Signature) (slot : Slot) (passed : Option ElementType) :
    Except Fault Unit :=
  match s[slot]?, passed with
  | some recorded, some passed =>
    if recorded = passed ∨ recorded.accepts passed then .ok ()
    else .error (.overwritten slot recorded passed)
  | _, _ => .ok ()

/-- A call site passes no type that a recorded one would have to give way to. -/
def checkOverwrite (recorded : Option Signature) (incoming : Incoming) : Except Fault Unit :=
  match recorded with
  | none => .ok ()
  | some s => incoming.toList.forM fun (slot, passed) => s.checkSlot slot passed

/-! ### Positional arguments -/

namespace Incoming

/-- The first keyword that is passed. -/
def keyword? (incoming : Incoming) : Option String :=
  incoming.keys.findSome? fun
    | .keyword name => some name
    | .position _ => none

/-- One more than the last input position that is passed. -/
def inputCount (incoming : Incoming) : Nat :=
  incoming.keys.foldl (fun n slot => match slot with
    | .position i => max n (i + 1).toNat
    | .keyword _ => n) 0

/-- The types of the positional inputs; one that is passed over is not known. -/
def positional (incoming : Incoming) : List (Option ElementType) :=
  (List.range incoming.inputCount).map fun i => incoming[Slot.input i]?.join

end Incoming

/-! ### Kernels as callees -/

namespace Kernel

/-- The kernel with a passed type for one of its inputs.  A declared type stays: the value is
converted at the call. -/
def declare (k : Kernel) (name : String) (type : ElementType) : Kernel :=
  match k.findVariable? name with
  | some v => if v.dtype.isKnown then k else k.withType name type
  | none => k

/-- The kernel with what a call site passes in one slot; `inputs` names its inputs in order. -/
def receive (inputs : List String) (k : Kernel) (slot : Slot) (passed : Option ElementType) :
    Except Fault Kernel :=
  match passed, slot with
  | none, _ => .ok k
  | some type, .position i =>
    if i < 0 then .ok k
    else
      match inputs[i.toNat]? with
      | some name => .ok (k.declare name type)
      | none => .error (.noInputAt k.name inputs.length i)
  | some type, .keyword name =>
    if name ∈ inputs then .ok (k.declare name type) else .error (.noInputNamed k.name name)

/-- The kernel with all that a call site passes. -/
def receiveAll (k : Kernel) (incoming : Incoming) : Except Fault Kernel :=
  let inputs := k.inputs.map (·.name)
  incoming.toList.foldlM (fun k (slot, passed) => k.receive inputs slot passed) k

/-- The slot and type of an output, which must be known. -/
def outputSlot (k : Kernel) (v : Variable) (i : Nat) : Except Fault (Slot × ElementType) :=
  match v.dtype.known? with
  | some type => .ok (.result i, type)
  | none => .error (.outputUndetermined v.name k.name)

/-- The types of a typed kernel's inputs by position, and of its outputs as results. -/
def signature (k : Kernel) : Except Fault Signature := do
  let inputs := k.inputs.zipIdx.filterMap fun (v, i) => v.dtype.known?.map (Slot.input i, ·)
  let outputs ← k.outputs.zipIdx.mapM fun (v, i) => k.outputSlot v i
  return .ofList (inputs ++ outputs)

end Kernel

/-! ### Specialization -/

/-- Inference on a kernel with a table, all types expected. -/
abbrev Inference := Kernel → Table → Outcome (Kernel × Table)

namespace Callable

/-- The types of positional arguments for a function that takes no keywords. -/
def positional (c : Callable) (incoming : Incoming) :
    Except Fault (List (Option ElementType)) :=
  match incoming.keyword? with
  | some keyword => .error (.noKeywords c.name keyword)
  | none => .ok incoming.positional

/-- A builtin for the passed types. -/
def specializeBuiltin (c : Callable) (f : Builtin) (incoming : Incoming) :
    Except Fault Callable := do
  match ← f.specialize (← c.positional incoming) with
  | some signature => return { c with signature := some signature }
  | none => return c

/-- A matched function for the passed types, seen from the calling kernel. -/
def specializeMatched (target : Target) (caller : Kernel) (c : Callable) (matcher : String)
    (incoming : Incoming) : Except Fault Callable := do
  match (← c.positional incoming).mapM id with
  | none => return c
  | some types =>
    match target.overload? matcher caller c.name types with
    | some o => return .ofOverload c.name matcher o
    | none => throw (.noVariant c.name types)

/-- A kernel for the passed types, once they make all of its inputs known. -/
def specializeKernel (infer : Inference) (c : Callable) (callee : Kernel) (incoming : Incoming)
    (table : Table) : Outcome (Callable × Table) := do
  let callee ← callee.receiveAll incoming
  if callee.inputs.any (!·.dtype.isKnown) then return (c, table)
  let (typed, table) ← infer callee table
  let signature ← typed.signature
  return (⟨c.name, some signature, .kernel typed⟩, table)

/-- The callable for the types that a call site in `caller` passes, with the table after inference
on the kernels it calls. -/
def specialize (target : Target) (infer : Inference) (caller : Kernel) (c : Callable)
    (incoming : Incoming) (table : Table) : Outcome (Callable × Table) :=
  match c.implementation with
  | .builtin f => do return (← c.specializeBuiltin f incoming, table)
  | .matched matcher _ => do
    return (← c.specializeMatched target caller matcher incoming, table)
  | .kernel callee => c.specializeKernel infer callee incoming table

end Callable

end KernelTyping
