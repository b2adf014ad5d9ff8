import KernelTyping.Completeness
import KernelTyping.Inference.Component
import KernelTyping.Renaming

/-!
# KernelTyping.Inference.Basic — inferring the types of a kernel

* `inferKernel`: types for the untyped variables of a kernel, inside an open edit transaction, with
  all calls resolved on the way pointing at their specializations.
* `infer`: the same in a transaction of its own, whose unused specializations are dropped.
* `inferProgram`: the same for a kernel of the table, which is put back typed.
* `reductionTypes`: the types of a single reduction.

Kernels that are called are inferred in turn.  `fuel` bounds how deep that goes and how many visits
a component gets.
-/

namespace KernelTyping

namespace Inference

open Evaluation

variable (ctx : Context)

/-! ### One kernel -/

/-- Evaluates what an instruction assigns, for the calls in it. -/
def visit (i : Instruction) : Eval (Option Unit) := do
  match i.action with
  | .assign _ value =>
    let _ ← eval ctx value
    return some ()
  | .assignAll targets value =>
    if 1 < targets.length then
      let _ ← evalTuple ctx value
      return some ()
    else
      let _ ← eval ctx value
      return some ()
  | .barrier | .noop | .foreign _ _ _ => return some ()

/-- Resolves the calls of an instruction whose targets are typed.  A temporary fault leaves things
as they are. -/
def resolveCalls (p : Progress) (i : Instruction) : Outcome Progress := do
  match ← attempt (visit { ctx with env := p.env } i) p.table with
  | (some _, s) => return p.record s
  | (none, _) => return p

/-- The variables without a type, temporaries first. -/
def untyped (k : Kernel) : List Variable :=
  (k.temporaries ++ k.args).filter (!·.dtype.isKnown)

/-- The variables whose types are to be found; untyped loop bounds are indices. -/
def openNames (k : Kernel) : List String :=
  ((untyped k).map (·.name)).filter (!k.params.contains ·)

/-- The types known without looking at any instruction. -/
def startEnv (k : Kernel) : Env :=
  .ofList ((((untyped k).map (·.name)).filter (k.params.contains ·)).map (·, k.indexType))

/-- Types for the open variables of the expanded kernel `ctx.kernel`, and all its calls resolved. -/
def inferExpanded (complete : Bool) (fuel : Nat) (table : Table) : Outcome Progress := do
  let names := openNames ctx.kernel
  let d := Dependencies.ofKernel ctx.kernel names
  let p ← (d.components names).foldlM (settleComponent ctx d complete fuel)
    ⟨startEnv ctx.kernel, table, .empty⟩
  (ctx.kernel.instructions.filter (!·.isDataOblivious)).foldlM (resolveCalls ctx) p

/-- The kernel with what was found filled in, checked to be complete if that is asked for. -/
def finishKernel (complete : Bool) (k : Kernel) (p : Progress) : Except Fault (Kernel × Table) := do
  let typed ← (k.withTypes p.env.toList).rename p.renames
  if complete then
    typed.checkFunctionsResolved p.table
    typed.checkVariablesTyped
  return (typed, p.table)

/-- Inference on one kernel; `infer` is used for the kernels it calls. -/
def inferWith (target : Target) (infer : Inference) (complete : Bool) (fuel : Nat) (k : Kernel)
    (table : Table) : Outcome (Kernel × Table) := do
  if !table.isEditing then throw (.fault (.inferenceNotEditing k.name))
  let expanded ← k.expand
  let p ← inferExpanded ⟨target, expanded, startEnv expanded, infer⟩ complete fuel table
  finishKernel complete k p

end Inference

open Inference

/-- Inference on a kernel inside an open edit transaction of the table.  With `complete`, a type or
call that stays open is a fault. -/
def inferKernel (target : Target) : (fuel : Nat) → (complete : Bool) → Kernel → Table →
    Outcome (Kernel × Table)
  | 0, _, _, _ => .error .exhausted
  | fuel + 1, complete, k, table =>
    inferWith target (inferKernel target fuel true) complete fuel k table

/-! ### Requests -/

variable (target : Target) (fuel : Nat)

/-- Inference on a kernel in a transaction of its own.  If that is the outermost one, new
specializations that nothing refers to are dropped. -/
def infer (complete : Bool) (k : Kernel) (table : Table) : Outcome (Kernel × Table) := do
  let (table, checkpoint) := table.beginEdit
  let (typed, table) ← inferKernel target fuel complete k table
  let table :=
    if checkpoint.isOutermost then table.retainReachable typed.calledEntries.toList else table
  return (typed, ← table.commitEdit checkpoint)

/-- Inference on the kernel of an entry, which is put back typed. -/
def inferProgram (complete : Bool) (entry : String) (table : Table) : Outcome Table := do
  match table.get? entry with
  | none => throw (.fault (.entryPointMissing entry))
  | some callable =>
    match callable.kernel? with
    | none => throw (.fault (.entryPointNotKernel entry))
    | some k =>
      let (typed, table) ← infer target fuel complete k table
      return table.insert entry { callable with implementation := .kernel typed }

/-! ### A single reduction -/

/-- What a reduction folds over. -/
inductive ReductionBody where
  | single (e : Expr)
  | tuple (es : List Expr)

/-- A reduction by itself. -/
structure Reduction where
  op : ReductionOp
  inames : List String
  body : ReductionBody

namespace Reduction

def toExpr (r : Reduction) : Expr :=
  match r.body with
  | .single e => .reduction r.op r.inames e
  | .tuple es => .tupleReduction r.op r.inames es

/-- The types of the values a reduction folds over. -/
def evalArgs (ctx : Evaluation.Context) (r : Reduction) :
    Evaluation.Eval (Option (List ElementType)) := do
  match r.body with
  | .tuple es => return (← es.mapM (Evaluation.eval ctx)).mapM id
  | .single e =>
    if r.op.isTuple then Evaluation.evalPair ctx e
    else return (← Evaluation.eval ctx e).map ([·])

end Reduction

/-- The types of a reduction's arguments and results under the declared types of a kernel.  Where
they are not known they are left open if `unknownOk`, and a fault otherwise. -/
def reductionTypes (k : Kernel) (r : Reduction) (unknownOk : Bool) (table : Table) :
    Outcome (List Dtype × List Dtype × Table) := do
  let (table, checkpoint) := table.beginEdit
  let ctx : Evaluation.Context := ⟨target, k, ∅, inferKernel target fuel true⟩
  let (args?, s) ← attempt (r.evalArgs ctx) table
  let table ← s.table.commitEdit checkpoint
  match args? with
  | some args =>
    let results ← r.op.resultTypes args
    return (args.map .known, results.map .known, table)
  | none =>
    if unknownOk then
      let unknown := List.replicate r.op.arity Dtype.auto
      return (unknown, unknown, table)
    else throw (.fault (.accumulatorUndetermined r.toExpr))

end KernelTyping
