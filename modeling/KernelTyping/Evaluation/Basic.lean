import KernelTyping.Callable.Specialization
import KernelTyping.Evaluation.Operator
import KernelTyping.Renames

/-!
# KernelTyping.Evaluation.Basic — what is known of the type of an expression

* `Evaluation.eval`: the type of an expression, or nothing if too little is known yet.
* `Evaluation.evalTuple`: the types of a call or reduction with several results.

On the way, every call whose types are known is resolved: its specialization goes into the table
and its name into the renames.  The state is kept when evaluation fails, so that what was found
before a temporary fault is not lost; only a call that is being resolved has its table taken out of
the state.
-/

namespace KernelTyping

/-- Types found so far, which override the declarations of a kernel. -/
abbrev Env := Std.ExtTreeMap String ElementType

namespace Evaluation

/-- What an evaluation does not change. -/
structure Context where
  target : Target
  kernel : Kernel
  env : Env
  /-- Inference on the kernels that are called. -/
  infer : Inference

/-- What an evaluation finds out. -/
structure State where
  table : Table
  /-- Variables whose type was needed and is not known. -/
  unknown : NameSet
  renames : Renames

/-- The state before an evaluation. -/
def State.start (table : Table) : State := ⟨table, ∅, .empty⟩

/-- Evaluation with its findings; they are kept when it fails. -/
abbrev Eval := ExceptT Halt (StateM State)

instance : MonadLift Outcome Eval where
  monadLift x := ExceptT.mk (pure x)

instance : MonadLift (Except Fault) Eval where
  monadLift x := liftM (n := Eval) (liftM (n := Outcome) x)

/-- A fault of the evaluated expression. -/
def fault {α : Type} (cause : Fault) : Eval α := throw (.fault cause)

variable (ctx : Context)

/-! ### Variables -/

/-- The type of a name.  Index names come first, then constants of the target, then types found so
far, then declarations; a loop bound that is no variable is an index. -/
def variableType (name : String) : Eval (Option ElementType) := do
  if ctx.kernel.inames.contains name then
    return some ctx.kernel.indexType
  match ctx.kernel.symbol? ctx.target name with
  | some symbol => return some symbol.type
  | none =>
    match ctx.env[name]? with
    | some type => return some type
    | none =>
      match ctx.kernel.findVariable? name with
      | some v =>
        if !v.dtype.isKnown then
          modify fun s => { s with unknown := s.unknown.insert name }
        return v.dtype.known?
      | none =>
        if ctx.kernel.params.contains name then return some ctx.kernel.indexType
        else fault (.unknownName name)

/-! ### Calls -/

/-- The table, which the state is without until another one is put back. -/
def takeTable : Eval Table := do
  let table := (← get).table
  modify fun s => { s with table := .empty }
  return table

/-- Records that `call` resolved to `callable`, stored by `store` in a table. -/
def record (call : Expr) (stored : Table × String) : Eval Unit :=
  modify fun s => { s with table := stored.1, renames := s.renames.insert call stored.2 }

/-- A call of an entry of the table.  The call is recorded only when the entry has results for the
passed types. -/
def resolveEntry (call : Expr) (name : String) (incoming : Incoming) :
    Eval (Option (List ElementType)) := do
  match (← get).table.get? name with
  | none => fault (.noEntry name)
  | some callable =>
    checkOverwrite callable.signature incoming
    let (specialized, table) ←
      callable.specialize ctx.target ctx.infer ctx.kernel incoming (← takeTable)
    match specialized.results? with
    | none =>
      modify fun s => { s with table }
      return none
    | some results =>
      record call (← table.storeSpecialization name specialized)
      return some results

/-- A call of a bare name, which the target must match once all positional arguments are known. -/
def resolveBare (call : Expr) (name : String) (args : List (Option ElementType)) :
    Eval (Option (List ElementType)) := do
  match args.mapM id with
  | none => return none
  | some types =>
    match ctx.kernel.overload? ctx.target name types with
    | none => return none
    | some (matcher, overload) =>
      record call (← (← takeTable).store name (.ofOverload name matcher overload))
      return some overload.results

/-- A call of either kind, with the types of its arguments. -/
def resolve (call : Expr) (callee : Callee) (args : List (Option ElementType))
    (keywords : List (String × Option ElementType)) : Eval (Option (List ElementType)) :=
  match callee with
  | .entry name => resolveEntry ctx call name (.ofArguments args keywords)
  | .bare name => resolveBare ctx call name args

/-- The one result of a call that is used as a value. -/
def single (call : Expr) : Option (List ElementType) → Eval (Option ElementType)
  | none => return none
  | some [type] => return some type
  | some _ => fault (.callNotSingle call)

/-! ### Expressions -/

/-- Calls and reductions can have several results. -/
def canBeTuple : Expr → Bool
  | .call _ _ _ | .reduction _ _ _ | .tupleReduction _ _ _ => true
  | _ => false

/-- The results of a reduction, once all it folds over is known. -/
def reductionResults (op : ReductionOp) : Option (List ElementType) →
    Eval (Option (List ElementType))
  | none => return none
  | some args => return some (← op.resultTypes args)

/-- A step to something no larger, of a lower rank. -/
theorem lex_of_le {m n : Nat} (h : m ≤ n) : Prod.Lex (· < ·) (· < ·) (m, 0) (n, 1) := by
  rcases Nat.lt_or_eq_of_le h with h | rfl
  · exact .left _ _ h
  · exact .right _ Nat.zero_lt_one

theorem size_le_of_mem_keywords {k : String} {e : Expr} {keywords : List (String × Expr)}
    (h : (k, e) ∈ keywords) : e.size ≤ Expr.sizeNamed keywords := by
  rw [Expr.sizeNamed_eq]
  exact Expr.size_le_sizeList (List.mem_map.2 ⟨_, h, rfl⟩)

mutual

/-- The type of an expression, or nothing if too little is known. -/
def eval (e : Expr) : Eval (Option ElementType) :=
  match e with
  | .constant c => return some (← c.type)
  | .var name => variableType ctx name
  | .hardware _ => return some ctx.kernel.indexType
  | .nary op es => do
    let types ← es.attach.mapM fun ⟨e, _⟩ => eval e
    op.type (es.zip types)
  | .binary op l r => do
    let left ← eval l
    let right ← eval r
    op.type left right
  | .not e => do
    let _ ← eval e
    return some .truth
  | .ite c t f => do
    let _ ← eval c
    let onTrue ← eval t
    let onFalse ← eval f
    ElementType.combine [onTrue, onFalse]
  -- index expressions do not take part
  | .subscript a _ => eval a
  | .linearSubscript a _ => eval a
  | .lookup a field => do
    match ← eval a with
    | none => return none
    | some type => return some (← fieldType a type field)
  | .cast target e => do
    match ← eval e with
    | none => fault (.typeNotKnownYet e (← get).unknown.toList)
    | some source => return some (← castType source target)
  | .call callee args keywords => do
    single (.call callee args keywords) (← evalCall callee args keywords)
  | .reduction op inames body => do
    if op.isTuple then fault (.reductionNotSingle (.reduction op inames body))
    else
      let type ← eval body
      return (← reductionResults op (type.map ([·]))).bind List.head?
  | .tupleReduction op inames bodies => do
    if op.isTuple then fault (.reductionNotSingle (.tupleReduction op inames bodies))
    else
      let types ← bodies.attach.mapM fun ⟨e, _⟩ => eval e
      return (← reductionResults op (types.mapM id)).bind List.head?
  | .view inames body => eval (Expr.beginSubscript inames body)
termination_by (e.size, 0)
decreasing_by
  all_goals
    apply Prod.Lex.left
    first
    | exact Expr.size_lt_of_mem_children ‹_›
    | simp only [Expr.size, Expr.size_beginSubscript]; omega

/-- The types of the arguments of a call, and its results for them. -/
def evalCall (callee : Callee) (args : List Expr) (keywords : List (String × Expr)) :
    Eval (Option (List ElementType)) := do
  let types ← args.attach.mapM fun ⟨e, _⟩ => eval e
  let named ← keywords.attach.mapM fun ⟨(k, e), _⟩ => return (k, ← eval e)
  resolve ctx (.call callee args keywords) callee types named
termination_by (Expr.sizeList args + Expr.sizeNamed keywords, 1)
decreasing_by
  · have := Expr.size_le_sizeList ‹_›
    exact lex_of_le (by omega)
  · have := size_le_of_mem_keywords ‹_›
    exact lex_of_le (by omega)

/-- The types of the values that a tuple-typed reduction of one expression folds over. -/
def evalPair (body : Expr) : Eval (Option (List ElementType)) :=
  if canBeTuple body then evalTuple body else fault (.tupleReductionBody body)
termination_by (body.size, 1)
decreasing_by exact lex_of_le (Nat.le_refl _)

/-- The types of the results of a call or of a reduction over pairs. -/
def evalTuple (e : Expr) : Eval (Option (List ElementType)) :=
  match e with
  | .call callee args keywords => evalCall callee args keywords
  | .reduction op inames body => do
    if op.isTuple then reductionResults op (← evalPair body)
    else fault (.reductionNotTuple (.reduction op inames body))
  | .tupleReduction op inames bodies => do
    if op.isTuple then
      let types ← bodies.attach.mapM fun ⟨e, _⟩ => eval e
      reductionResults op (types.mapM id)
    else fault (.reductionNotTuple (.tupleReduction op inames bodies))
  | e => fault (.notTuple e)
termination_by (e.size, 0)
decreasing_by exact .left _ _ (by simp only [Expr.size]; omega)

end

/-! ### Equations -/

attribute [local simp] eval evalCall evalPair evalTuple

theorem eval_constant (c : Constant) : eval ctx (.constant c) = (do return some (← c.type)) := by
  rw [eval]

theorem eval_var (name : String) : eval ctx (.var name) = variableType ctx name := by
  rw [eval]

theorem eval_nary (op : NaryOp) (es : List Expr) :
    eval ctx (.nary op es) = (do
      let types ← es.mapM (eval ctx)
      op.type (es.zip types)) := by
  rw [eval]
  simp

theorem eval_binary (op : BinaryOp) (l r : Expr) :
    eval ctx (.binary op l r) = (do
      let left ← eval ctx l
      let right ← eval ctx r
      op.type left right) := by
  rw [eval]

/-- Index expressions do not take part. -/
theorem eval_subscript (a : Expr) (is : List Expr) :
    eval ctx (.subscript a is) = eval ctx a := by
  rw [eval]

theorem eval_linearSubscript (a i : Expr) :
    eval ctx (.linearSubscript a i) = eval ctx a := by
  rw [eval]

/-- A view has the type of the subscript at which it starts. -/
theorem eval_view (inames : List String) (body : Expr) :
    eval ctx (.view inames body) = eval ctx (Expr.beginSubscript inames body) := by
  rw [eval]

theorem evalCall_eq (callee : Callee) (args : List Expr) (keywords : List (String × Expr)) :
    evalCall ctx callee args keywords = (do
      let types ← args.mapM (eval ctx)
      let named ← keywords.mapM fun (k, e) => return (k, ← eval ctx e)
      resolve ctx (.call callee args keywords) callee types named) := by
  have h : (keywords.attach.mapM fun ⟨(k, e), _⟩ => do return (k, ← eval ctx e) : Eval _) =
      keywords.mapM fun (k, e) => do return (k, ← eval ctx e) := by
    rw [List.mapM_subtype (g := fun (k, e) => do return (k, ← eval ctx e)) fun _ _ => rfl,
      List.unattach_attach]
  rw [evalCall, h]
  simp

theorem eval_call (callee : Callee) (args : List Expr) (keywords : List (String × Expr)) :
    eval ctx (.call callee args keywords) = (do
      single (.call callee args keywords) (← evalCall ctx callee args keywords)) := by
  rw [eval]

theorem evalTuple_call (callee : Callee) (args : List Expr) (keywords : List (String × Expr)) :
    evalTuple ctx (.call callee args keywords) = evalCall ctx callee args keywords := by
  rw [evalTuple]

end Evaluation

end KernelTyping
