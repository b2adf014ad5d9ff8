import KernelTyping.Dependency
import KernelTyping.Evaluation.Basic

/-!
# KernelTyping.Inference.Component — typing the variables of one component

The type of a variable combines what its writers assign to it.  The members of a component are
visited in passes, under the types found so far, until a pass changes nothing (`settle`).  A member
whose writers say nothing is visited once more at the end of the pass; if they say nothing again and
nothing has changed in between, the component is given up.
-/

namespace KernelTyping.Inference

open Evaluation

/-- What has been found so far. -/
structure Progress where
  env : Env
  table : Table
  renames : Renames

/-- A variable whose type is to be found, with the instructions that write it. -/
structure Member where
  name : String
  writers : List Instruction

/-- The variable of that name in a kernel. -/
def Member.ofName (k : Kernel) (name : String) : Member := ⟨name, k.writers name⟩

variable (ctx : Context)

/-! ### Writers -/

/-- The types an instruction assigns to its several targets, which must be as many. -/
def assignedTypes (i : Instruction) (targets : List Assignee) (value : Expr) :
    Eval (Option (List (Assignee × ElementType))) := do
  match ← evalTuple ctx value with
  | none => return none
  | some types =>
    if types.length = targets.length then return some (targets.zip types)
    else fault (.targetCount i.id types.length targets.length)

/-- The type an instruction assigns to a variable: that of the first target that names it.  Declared
writes have no type. -/
def writerType (name : String) (i : Instruction) : Eval (Option ElementType) := do
  match i.action with
  | .assign _ value => eval ctx value
  | .assignAll targets value =>
    if 1 < targets.length then
      let assigned ← assignedTypes ctx i targets value
      return assigned.bind fun types => (types.find? (·.1.varName == name)).map (·.2)
    else eval ctx value
  | .barrier | .noop | .foreign _ _ _ => return none

/-- The type that the writers of a variable assign to it. -/
def writtenType (m : Member) : Eval (Option ElementType) := do
  ElementType.combine (← m.writers.mapM (writerType ctx m.name))

/-- Runs an evaluation from a table.  Nothing is found where it meets a temporary fault. -/
def attempt {α : Type} (x : Eval (Option α)) (table : Table) : Outcome (Option α × State) :=
  match x.run.run (.start table) with
  | (.ok found, s) => .ok (found, s)
  | (.error .exhausted, _) => .error .exhausted
  | (.error (.fault f), s) => if f.isTemporary then .ok (none, s) else .error (.fault f)

/-! ### Passes -/

/-- The progress with what an evaluation found. -/
def Progress.record (p : Progress) (s : State) : Progress :=
  { p with table := s.table, renames := p.renames.merge s.renames }

variable (members : List Member) (onePass complete : Bool)

/-- Visits the members in `queue`, and all of them again as long as the last pass changed something.
The members in `failed` said nothing since the last change.  With `onePass` there is no second
pass; with `complete`, giving up is a fault. -/
def settle : (fuel : Nat) → (queue : List Member) → (failed : NameSet) → (changed : Bool) →
    Progress → Outcome Progress
  | 0, _, _, _, _ => .error .exhausted
  | fuel + 1, [], failed, changed, p =>
    if changed && !onePass then settle fuel members failed false p else .ok p
  | fuel + 1, m :: queue, failed, changed, p => do
    let (found, s) ← attempt (writtenType { ctx with env := p.env } m) p.table
    match found with
    | some type =>
      let p := p.record s
      if p.env[m.name]? = some type then settle fuel queue failed changed p
      else settle fuel queue ∅ true { p with env := p.env.insert m.name type }
    | none =>
      if failed.contains m.name then
        if complete then
          throw (.fault (.undetermined m.name s.unknown.toList ctx.kernel.name))
        else return p
      else settle fuel (queue ++ [m]) (failed.insert m.name) changed p

/-- Types the members of a component.  A lone variable that does not depend on itself is settled
after one pass. -/
def settleComponent (d : Dependencies) (complete : Bool) (fuel : Nat) (p : Progress)
    (names : List String) : Outcome Progress :=
  let onePass := match names with
    | [name] => !d.onItself name
    | _ => false
  let members := names.map (.ofName ctx.kernel)
  settle ctx members onePass complete fuel members ∅ false p

end KernelTyping.Inference
