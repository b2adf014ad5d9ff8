import KernelTyping.Proofs.Evaluation.Run

/-!
# KernelTyping.Proofs.Evaluation.Operands — evaluation, one node at a time

To evaluate an expression is to evaluate its operands in order and then to conclude from their
types (`eval_eq`).  The operands are the children that take part: index expressions do not, and a
view stands for the subscript at which it starts.

* `operands`, `conclude`: the two halves of `eval`; `tupleOperands`, `concludeTuple`: those of
  `evalTuple`.
* `Visits e d`: evaluating `e` evaluates `d`.
* `Compatible`: a relation between evaluations that sequences respect.  If two contexts are related
  at every name and at every call that is visited, then they are related at the expression
  (`Compatible.eval`, `Compatible.evalTuple`).
-/

namespace KernelTyping.Evaluation

/-! ### Operands -/

/-- The expressions whose types decide the type of an expression, in order of evaluation. -/
def operands : Expr → List Expr
  | .subscript a _ | .linearSubscript a _ => [a]
  | .view inames body => [Expr.beginSubscript inames body]
  | .reduction op _ body => if op.isTuple then [] else [body]
  | .tupleReduction op _ bodies => if op.isTuple then [] else bodies
  | e => e.children

theorem size_lt_of_mem_operands {c e : Expr} (h : c ∈ operands e) : c.size < e.size := by
  cases e with
  | subscript a is | linearSubscript a is =>
    obtain rfl := List.mem_singleton.1 h
    exact Expr.size_lt_of_mem_children (by simp [Expr.children])
  | view inames body =>
    obtain rfl := List.mem_singleton.1 h
    rw [Expr.size_beginSubscript, Expr.size]
    omega
  | reduction op inames body =>
    rw [operands] at h
    split at h
    · cases h
    · exact Expr.size_lt_of_mem_children h
  | tupleReduction op inames bodies =>
    rw [operands] at h
    split at h
    · cases h
    · exact Expr.size_lt_of_mem_children h
  | _ => exact Expr.size_lt_of_mem_children h

variable (ctx : Context)

/-- The results of a call whose arguments, keywords last, have these types. -/
def callResults (callee : Callee) (args : List Expr) (keywords : List (String × Expr))
    (types : List (Option ElementType)) : Eval (Option (List ElementType)) :=
  resolve ctx (.call callee args keywords) callee (types.take args.length)
    ((keywords.map (·.1)).zip (types.drop args.length))

/-- The temporary fault of a cast whose operand has no type yet. -/
def notKnownYet {α : Type} (e : Expr) : Eval α := do
  fault (.typeNotKnownYet e (← get).unknown.toList)

/-- What the types of its operands say about an expression. -/
def conclude : Expr → List (Option ElementType) → Eval (Option ElementType)
  | .constant c, _ => do return some (← c.type)
  | .var name, _ => variableType ctx name
  | .hardware _, _ => return some ctx.kernel.indexType
  | .nary op es, types => op.type (es.zip types)
  | .binary op _ _, [left, right] => op.type left right
  | .not _, _ => return some .truth
  | .ite _ _ _, [_, onTrue, onFalse] => ElementType.combine [onTrue, onFalse]
  | .subscript _ _, [type] | .linearSubscript _ _, [type] | .view _ _, [type] => return type
  | .lookup a field, [some type] => do return some (← fieldType a type field)
  | .cast _ e, [none] => notKnownYet e
  | .cast target _, [some source] => do return some (← castType source target)
  | .call callee args keywords, types => do
    single (.call callee args keywords) (← callResults ctx callee args keywords types)
  | .reduction op inames body, types =>
    if op.isTuple then fault (.reductionNotSingle (.reduction op inames body))
    else do return (← reductionResults op (types.mapM id)).bind List.head?
  | .tupleReduction op inames bodies, types =>
    if op.isTuple then fault (.reductionNotSingle (.tupleReduction op inames bodies))
    else do return (← reductionResults op (types.mapM id)).bind List.head?
  | _, _ => return none

theorem mapM_keywords (f : Expr → Eval (Option ElementType)) (keywords : List (String × Expr)) :
    (keywords.mapM fun (k, e) => do return (k, ← f e)) =
      (do return (keywords.map (·.1)).zip (← (keywords.map (·.2)).mapM f)) := by
  induction keywords with
  | nil => simp
  | cons kw keywords ih =>
    simp only [List.mapM_cons, List.map_cons, ih, bind_assoc, pure_bind]
    rfl

theorem length_of_mapM_pure_bind {α β γ : Type} (f : α → Eval β) (xs : List α)
    (g h : List β → Eval γ) (hgh : ∀ ys, ys.length = xs.length → g ys = h ys) :
    xs.mapM f >>= g = xs.mapM f >>= h := by
  induction xs generalizing g h with
  | nil => simp [hgh []]
  | cons x xs ih =>
    simp only [List.mapM_cons, bind_assoc, pure_bind]
    refine bind_congr fun y => ?_
    exact ih _ _ fun ys hys => hgh (y :: ys) (by simp [hys])

/-- Keyword arguments are evaluated after the positional ones. -/
theorem evalCall_eq_callResults (callee : Callee) (args : List Expr)
    (keywords : List (String × Expr)) :
    evalCall ctx callee args keywords =
      (Expr.call callee args keywords).children.mapM (eval ctx) >>=
        callResults ctx callee args keywords := by
  rw [evalCall_eq, mapM_keywords, Expr.children, List.mapM_append]
  simp only [bind_assoc, pure_bind]
  refine length_of_mapM_pure_bind _ _ _ _ fun types htypes => bind_congr fun named => ?_
  rw [callResults, ← htypes, List.take_left, List.drop_left]

theorem eval_eq (e : Expr) :
    eval ctx e = (operands e).mapM (eval ctx) >>= conclude ctx e := by
  cases e with
  | call callee args keywords =>
    rw [eval_call, evalCall_eq_callResults, bind_assoc]
    rfl
  | reduction op inames body =>
    rw [eval, operands]
    by_cases h : op.isTuple
    · simp [conclude, h]
    · simp only [h, Bool.false_eq_true, if_false, List.mapM_cons, List.mapM_nil, bind_assoc,
        pure_bind, conclude]
      refine bind_congr fun type => ?_
      cases type <;> rfl
  | tupleReduction op inames bodies =>
    rw [eval, operands]
    by_cases h : op.isTuple
    · simp [conclude, h]
    · simp only [h, Bool.false_eq_true, if_false, List.mapM_subtype, List.unattach_attach]
      refine bind_congr fun types => ?_
      simp only [conclude, h, Bool.false_eq_true, if_false]
  | lookup _ _ | cast _ _ =>
    rw [eval]
    simp only [operands, Expr.children, List.mapM_cons, List.mapM_nil, pure_bind, bind_assoc]
    refine bind_congr fun type => ?_
    cases type <;> rfl
  | nary op es =>
    rw [eval_nary]
    rfl
  | _ =>
    rw [eval]
    simp only [operands, Expr.children, List.mapM_cons, List.mapM_nil, pure_bind, bind_assoc,
      bind_pure, conclude]

/-! ### Several results -/

/-- The expressions whose types decide the results of a call or of a reduction over pairs. -/
def tupleOperands : Expr → List Expr
  | .call callee args keywords => (Expr.call callee args keywords).children
  | .reduction op _ body => if op.isTuple && canBeTuple body then tupleOperands body else []
  | .tupleReduction op _ bodies => if op.isTuple then bodies else []
  | _ => []

/-- The call whose results are folded over, or returned. -/
def tupleCall? : Expr → Option Expr
  | .call callee args keywords => some (.call callee args keywords)
  | .reduction op _ body => if op.isTuple && canBeTuple body then tupleCall? body else none
  | _ => none

/-- What the types of its operands say about the results of a call or reduction. -/
def concludeTuple : Expr → List (Option ElementType) → Eval (Option (List ElementType))
  | .call callee args keywords, types => callResults ctx callee args keywords types
  | .reduction op inames body, types =>
    if op.isTuple then
      if canBeTuple body then do reductionResults op (← concludeTuple body types)
      else fault (.tupleReductionBody body)
    else fault (.reductionNotTuple (.reduction op inames body))
  | .tupleReduction op inames bodies, types =>
    if op.isTuple then reductionResults op (types.mapM id)
    else fault (.reductionNotTuple (.tupleReduction op inames bodies))
  | e, _ => fault (.notTuple e)

theorem evalTuple_eq (e : Expr) :
    evalTuple ctx e = (tupleOperands e).mapM (eval ctx) >>= concludeTuple ctx e := by
  match e with
  | .call callee args keywords =>
    rw [evalTuple_call, evalCall_eq_callResults]
    rfl
  | .reduction op inames body =>
    rw [evalTuple, tupleOperands]
    by_cases h : op.isTuple
    · rw [evalPair]
      by_cases hb : canBeTuple body
      · simp only [h, hb, if_true, Bool.and_true, evalTuple_eq body, bind_assoc, concludeTuple]
      · simp [h, hb, concludeTuple]
        rfl
    · simp [h, concludeTuple]
  | .tupleReduction op inames bodies =>
    rw [evalTuple, tupleOperands]
    by_cases h : op.isTuple
    · simp only [h, if_true, List.mapM_subtype, List.unattach_attach, concludeTuple]
    · simp [h, concludeTuple]
  | .constant _ | .var _ | .hardware _ | .nary _ _ | .binary _ _ _ | .not _ | .ite _ _ _
  | .subscript _ _ | .linearSubscript _ _ | .lookup _ _ | .cast _ _ | .view _ _ =>
    rw [evalTuple]
    · simp [tupleOperands, concludeTuple]
    all_goals intros; exact Expr.noConfusion ‹_ = _›

/-! ### Visits -/

/-- Evaluating an expression evaluates another one on the way. -/
inductive Visits : Expr → Expr → Prop where
  | self (e : Expr) : Visits e e
  | operand {c e d : Expr} (h : c ∈ operands e) (hd : Visits c d) : Visits e d

/-- The same for the value of an assignment to one target, or to several. -/
inductive VisitsValue : Bool → Expr → Expr → Prop where
  | single {e d : Expr} (h : Visits e d) : VisitsValue false e d
  | tuple {c e d : Expr} (h : c ∈ tupleOperands e) (hd : Visits c d) : VisitsValue true e d
  | call {e d : Expr} (h : tupleCall? e = some d) : VisitsValue true e d

/-! ### Relations between evaluations -/

/-- A relation between evaluations that holds of equal steps and is kept in sequence. -/
structure Compatible (R : (α : Type) → Eval α → Eval α → Prop) : Prop where
  pure {α : Type} (a : α) : R α (pure a) (pure a)
  bind {α β : Type} {x y : Eval α} {f g : α → Eval β} :
    R α x y → (∀ a, R β (f a) (g a)) → R β (x >>= f) (y >>= g)
  fault {α : Type} (cause : Fault) : R α (fault cause) (fault cause)
  /-- The one step that looks at the names whose types are missing. -/
  notKnownYet {α : Type} (e : Expr) : R α (notKnownYet e) (notKnownYet e)

namespace Compatible

variable {R : (α : Type) → Eval α → Eval α → Prop} (hR : Compatible R) {ctx₁ ctx₂ : Context}

include hR

theorem lift {α : Type} (x : Except Fault α) : R α (liftM x) (liftM x) := by
  cases x with
  | ok a => exact hR.pure a
  | error f => exact hR.fault f

theorem mapM {α β : Type} {f g : α → Eval β} {xs : List α} (h : ∀ x ∈ xs, R β (f x) (g x)) :
    R (List β) (xs.mapM f) (xs.mapM g) := by
  induction xs with
  | nil => exact hR.pure []
  | cons x xs ih =>
    rw [List.mapM_cons, List.mapM_cons]
    refine hR.bind (h x (by simp)) fun y => ?_
    refine hR.bind (ih fun x hx => h x (by simp [hx])) fun ys => ?_
    exact hR.pure _

theorem reductionResults (op : ReductionOp) (args : Option (List ElementType)) :
    R _ (reductionResults op args) (reductionResults op args) := by
  cases args with
  | none => exact hR.pure none
  | some args => exact hR.bind (hR.lift _) fun _ => hR.pure _

theorem single (call : Expr) (results : Option (List ElementType)) :
    R _ (single call results) (single call results) := by
  match results with
  | none => exact hR.pure none
  | some [type] => exact hR.pure (some type)
  | some [] | some (_ :: _ :: _) => exact hR.fault _

/-- A node concludes alike in two contexts that agree on it. -/
theorem conclude (hindex : ctx₁.kernel.indexType = ctx₂.kernel.indexType) {e : Expr}
    (hvar : ∀ name, e = .var name → R _ (variableType ctx₁ name) (variableType ctx₂ name))
    (hcall : ∀ callee args keywords types, e = .call callee args keywords →
      R _ (callResults ctx₁ callee args keywords types)
        (callResults ctx₂ callee args keywords types))
    (types : List (Option ElementType)) :
    R _ (conclude ctx₁ e types) (conclude ctx₂ e types) := by
  cases e with
  | constant c => exact hR.bind (hR.lift _) fun _ => hR.pure _
  | var name => exact hvar name rfl
  | hardware i =>
    simp only [Evaluation.conclude, hindex]
    exact hR.pure _
  | nary op es => exact hR.lift _
  | binary op l r =>
    match types with
    | [left, right] => exact hR.lift _
    | [] | [_] | _ :: _ :: _ :: _ => exact hR.pure _
  | not e => exact hR.pure _
  | ite c t f =>
    match types with
    | [_, onTrue, onFalse] => exact hR.lift _
    | [] | [_] | [_, _] | _ :: _ :: _ :: _ :: _ => exact hR.pure _
  | subscript _ _ | linearSubscript _ _ | view _ _ =>
    match types with
    | [_] | [] | _ :: _ :: _ => exact hR.pure _
  | lookup a field =>
    match types with
    | [some type] => exact hR.bind (hR.lift _) fun _ => hR.pure _
    | [none] | [] | none :: _ :: _ | some _ :: _ :: _ => exact hR.pure _
  | cast target e =>
    match types with
    | [none] => exact hR.notKnownYet e
    | [some source] => exact hR.bind (hR.lift _) fun _ => hR.pure _
    | [] | none :: _ :: _ | some _ :: _ :: _ => exact hR.pure _
  | call callee args keywords =>
    exact hR.bind (hcall callee args keywords types rfl) fun results => hR.single _ results
  | reduction op _ _ | tupleReduction op _ _ =>
    simp only [Evaluation.conclude]
    split
    · exact hR.fault _
    · exact hR.bind (hR.reductionResults op _) fun _ => hR.pure _

/-- Two contexts that are related at every name and at every call that is visited are related at
the expression. -/
theorem eval (hindex : ctx₁.kernel.indexType = ctx₂.kernel.indexType) (e : Expr)
    (hvar : ∀ name, Visits e (.var name) →
      R _ (variableType ctx₁ name) (variableType ctx₂ name))
    (hcall : ∀ callee args keywords types, Visits e (.call callee args keywords) →
      R _ (callResults ctx₁ callee args keywords types)
        (callResults ctx₂ callee args keywords types)) :
    R _ (eval ctx₁ e) (eval ctx₂ e) := by
  rw [eval_eq, eval_eq]
  refine hR.bind (hR.mapM fun c hc => ?_) fun types => ?_
  · exact eval hindex c (fun name hd => hvar name (.operand hc hd))
      fun callee args keywords types hd => hcall callee args keywords types (.operand hc hd)
  · refine hR.conclude hindex (fun name he => hvar name ?_)
      (fun callee args keywords types he => hcall callee args keywords types ?_) types
    · exact he ▸ .self e
    · exact he ▸ .self e
termination_by e.size
decreasing_by exact size_lt_of_mem_operands hc

theorem concludeTuple (e : Expr)
    (hcall : ∀ callee args keywords types, tupleCall? e = some (.call callee args keywords) →
      R _ (callResults ctx₁ callee args keywords types)
        (callResults ctx₂ callee args keywords types))
    (types : List (Option ElementType)) :
    R _ (concludeTuple ctx₁ e types) (concludeTuple ctx₂ e types) := by
  induction e using Expr.inductionOnChildren with
  | step e ih =>
    cases e with
    | call callee args keywords => exact hcall callee args keywords types rfl
    | reduction op inames body =>
      simp only [Evaluation.concludeTuple]
      split
      case isFalse => exact hR.fault _
      case isTrue hop =>
        split
        case isFalse => exact hR.fault _
        case isTrue hbody =>
          refine hR.bind (ih body (by simp [Expr.children]) ?_) fun _ => hR.reductionResults op _
          intro callee args keywords types h
          exact hcall callee args keywords types (by simp [tupleCall?, hop, hbody, h])
    | tupleReduction op inames bodies =>
      simp only [Evaluation.concludeTuple]
      split
      · exact hR.reductionResults op _
      · exact hR.fault _
    | _ => exact hR.fault _

theorem evalTuple (hindex : ctx₁.kernel.indexType = ctx₂.kernel.indexType) (e : Expr)
    (hvar : ∀ name, VisitsValue true e (.var name) →
      R _ (variableType ctx₁ name) (variableType ctx₂ name))
    (hcall : ∀ callee args keywords types, VisitsValue true e (.call callee args keywords) →
      R _ (callResults ctx₁ callee args keywords types)
        (callResults ctx₂ callee args keywords types)) :
    R _ (evalTuple ctx₁ e) (evalTuple ctx₂ e) := by
  rw [evalTuple_eq, evalTuple_eq]
  refine hR.bind (hR.mapM fun c hc => ?_) fun types => ?_
  · exact hR.eval hindex c (fun name hd => hvar name (.tuple hc hd))
      fun callee args keywords types hd => hcall callee args keywords types (.tuple hc hd)
  · exact hR.concludeTuple e (fun callee args keywords types h =>
      hcall callee args keywords types (.call h)) types

end Compatible

end KernelTyping.Evaluation
