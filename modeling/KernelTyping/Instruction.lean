import KernelTyping.Expr.Text

/-!
# KernelTyping.Instruction — assignments and the other steps of a kernel

An instruction assigns an expression to one target, or the values of one call or reduction to
several, or carries no typed data at all.  A target names the variable it writes and may contain
index expressions.  `Instruction.expressions` lists what is read, the assigned expression first;
`Instruction.mapExpressionsM` rebuilds the same expressions, the indices of the targets first.
-/

namespace KernelTyping

/-! ### Targets of assignments -/

/-- What an assignment writes to. -/
inductive Assignee where
  | var (name : String)
  | subscript (name : String) (indices : List Expr)
  | linearSubscript (name : String) (index : Expr)
  /-- A field of another target. -/
  | lookup (aggregate : Assignee) (field : String)
  /-- The part of an array that the index names `inames` sweep over. -/
  | view (inames : List String) (name : String) (indices : List Expr)
  deriving DecidableEq

namespace Assignee

/-- The variable that is written. -/
def varName : Assignee → String
  | var name | subscript name _ | linearSubscript name _ | view _ name _ => name
  | lookup aggregate _ => aggregate.varName

/-- The index expressions, in order. -/
def indices : Assignee → List Expr
  | var _ => []
  | subscript _ is | view _ _ is => is
  | linearSubscript _ i => [i]
  | lookup aggregate _ => aggregate.indices

/-- The target with other index expressions in the order of `indices`.  A list whose length is
impossible leaves the target as it is. -/
def withIndices : Assignee → List Expr → Assignee
  | subscript name _, is => subscript name is
  | view inames name _, is => view inames name is
  | linearSubscript name _, [i] => linearSubscript name i
  | lookup aggregate field, is => lookup (aggregate.withIndices is) field
  | a, _ => a

@[simp] theorem withIndices_indices (a : Assignee) : a.withIndices a.indices = a := by
  induction a with
  | lookup _ _ ih => simp [withIndices, indices, ih]
  | _ => rfl

theorem indices_withIndices {a : Assignee} {is : List Expr} (h : is.length = a.indices.length) :
    (a.withIndices is).indices = is := by
  induction a with
  | var _ => exact (List.length_eq_zero_iff.1 h).symm
  | subscript _ _ | view _ _ _ => rfl
  | linearSubscript _ _ =>
    match is, h with
    | [_], _ => rfl
  | lookup _ _ ih => exact ih h

@[simp] theorem varName_withIndices (a : Assignee) (is : List Expr) :
    (a.withIndices is).varName = a.varName := by
  induction a with
  | lookup _ _ ih => simp [withIndices, varName, ih]
  | linearSubscript _ _ => unfold withIndices; split <;> simp_all [varName]
  | _ => rfl

/-- The target with `f` applied to each index expression. -/
def mapIndices (f : Expr → Expr) (a : Assignee) : Assignee := a.withIndices (a.indices.map f)

/-- The same with an `f` that can fail: the first index at which it does decides. -/
def mapIndicesM {m : Type → Type} [Monad m] (f : Expr → m Expr) (a : Assignee) : m Assignee := do
  return a.withIndices (← a.indices.mapM f)

def text : Assignee → String
  | var name => name
  | subscript name is => s!"{name}[{commaList (is.map Expr.text)}]"
  | linearSubscript name i => s!"{name}[[{i}]]"
  | lookup aggregate field => s!"{aggregate.text}.{field}"
  | view inames name is => s!"[{commaList inames}]: {name}[{commaList (is.map Expr.text)}]"

instance : ToString Assignee := ⟨text⟩

end Assignee

/-! ### Instructions -/

/-- What an instruction does. -/
inductive Action where
  | assign (target : Assignee) (value : Expr)
  /-- Several targets get the values of one call or reduction. -/
  | assignAll (targets : List Assignee) (value : Expr)
  | barrier
  | noop
  /-- Code of the target.  What it reads and writes is declared, not derived. -/
  | foreign (code : String) (reads writes : List String)
  deriving DecidableEq

structure Instruction where
  id : String
  action : Action
  deriving DecidableEq

namespace Instruction

/-- The assigned expression. -/
def value? (i : Instruction) : Option Expr :=
  match i.action with
  | .assign _ e | .assignAll _ e => some e
  | .barrier | .noop | .foreign _ _ _ => none

def targets (i : Instruction) : List Assignee :=
  match i.action with
  | .assign a _ => [a]
  | .assignAll targets _ => targets
  | .barrier | .noop | .foreign _ _ _ => []

/-- The instruction carries no typed data; inference skips it. -/
def isDataOblivious (i : Instruction) : Bool := i.value?.isNone

/-- The assigned expression, then the index expressions of the targets. -/
def expressions (i : Instruction) : List Expr :=
  i.value?.toList ++ i.targets.flatMap Assignee.indices

/-- The variables written, in order of the targets. -/
def writeNames (i : Instruction) : List String :=
  match i.action with
  | .foreign _ _ writes => writes
  | _ => i.targets.map Assignee.varName

/-- The names read. -/
def readNames (i : Instruction) : NameSet :=
  match i.action with
  | .foreign _ reads _ => Std.ExtTreeSet.ofList reads
  | _ => i.expressions.foldl (fun names e => names ∪ e.dependencyNames) ∅

/-- The instruction with `f` applied to each of its expressions. -/
def mapExpressions (f : Expr → Expr) (i : Instruction) : Instruction :=
  match i.action with
  | .assign a e => { i with action := .assign (a.mapIndices f) (f e) }
  | .assignAll targets e => { i with action := .assignAll (targets.map (·.mapIndices f)) (f e) }
  | .barrier | .noop | .foreign _ _ _ => i

/-- The same with an `f` that can fail.  The indices of the targets come before the assigned
expression. -/
def mapExpressionsM {m : Type → Type} [Monad m] (f : Expr → m Expr) (i : Instruction) :
    m Instruction :=
  match i.action with
  | .assign a e => do
    let a ← a.mapIndicesM f
    let e ← f e
    return { i with action := .assign a e }
  | .assignAll targets e => do
    let targets ← targets.mapM (·.mapIndicesM f)
    let e ← f e
    return { i with action := .assignAll targets e }
  | .barrier | .noop | .foreign _ _ _ => return i

theorem writeNames_mapExpressions (f : Expr → Expr) (i : Instruction) :
    (i.mapExpressions f).writeNames = i.writeNames := by
  obtain ⟨id, action⟩ := i
  cases action <;>
    simp [mapExpressions, writeNames, targets, Assignee.mapIndices, Function.comp_def]

def text (i : Instruction) : String :=
  match i.action with
  | .assign a e => s!"{i.id}: {a} = {e}"
  | .assignAll targets e => s!"{i.id}: {commaList (targets.map Assignee.text)} = {e}"
  | .barrier => s!"{i.id}: barrier"
  | .noop => s!"{i.id}: nop"
  | .foreign code _ _ => s!"{i.id}: \x7b{code}\x7d"

instance : ToString Instruction := ⟨text⟩

end Instruction

end KernelTyping
