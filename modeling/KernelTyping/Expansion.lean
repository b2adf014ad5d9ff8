import KernelTyping.Kernel
import KernelTyping.Fault

/-!
# KernelTyping.Expansion — expanding substitution rules

A call to the bare name of a rule, without keywords, is an invocation of the rule.  Its arguments
are expanded first and then put, all at once, in place of the parameters in the body of the rule,
which is expanded in turn.  A reduction's index names shadow parameters of the same name.  Bodies
nested 64 deep are taken for a rule that expands into itself.
-/

namespace KernelTyping

/-- The rules of a kernel by their names. -/
abbrev Rules := Std.ExtTreeMap String Rule

/-! ### Substitution -/

/-- What stands for a name, if it is replaced. -/
def Substitution := String → Option Expr

namespace Substitution

/-- The arguments for the parameters; of a repeated parameter the last one counts. -/
def ofParams (params : List String) (args : List Expr) : Substitution := fun name =>
  (params.zip args).reverse.lookup name

/-- The substitution that leaves some names alone. -/
def without (σ : Substitution) (names : List String) : Substitution := fun name =>
  if name ∈ names then none else σ name

end Substitution

namespace Expr

/-- The index names that a reduction binds in its body. -/
def boundNames : Expr → List String
  | reduction _ inames _ | tupleReduction _ inames _ => inames
  | _ => []

/-- The expression with its free variables replaced as the substitution says. -/
def substitute (σ : Substitution) (e : Expr) : Expr :=
  match e.varName? with
  | some name => (σ name).getD e
  | none => e.withChildren
      (e.children.attach.map fun ⟨c, _⟩ => substitute (σ.without e.boundNames) c)
termination_by e.size
decreasing_by exact size_lt_of_mem_children ‹_›

theorem substitute_var (σ : Substitution) (name : String) :
    (var name).substitute σ = (σ name).getD (var name) := by
  rw [substitute]
  rfl

theorem substitute_of_not_var {e : Expr} (σ : Substitution) (h : e.varName? = none) :
    e.substitute σ = e.mapChildren (substitute (σ.without e.boundNames)) := by
  rw [substitute, h, mapChildren]
  simp

/-! ### Expansion -/

/-- The rule that an expression invokes, by its name. -/
def invocation? (rules : Rules) : Expr → Option (String × Rule)
  | call (.bare name) _ [] => rules[name]?.map fun rule => (name, rule)
  | _ => none

/-- The expression with all invocations expanded, for bodies nested up to `depth` deep.  This is the
result only, not the number of calls: what stands beside a part that failed may still be visited, at
the cost of that many more calls, before the first fault is given. -/
def expandWithin (rules : Rules) (depth : Nat) (e : Expr) : Except Fault Expr :=
  match e.invocation? rules with
  | none => do
    let children ← e.children.attach.mapM fun ⟨c, _⟩ => expandWithin rules depth c
    return e.withChildren children
  | some (name, rule) =>
    match depth with
    | 0 => .error (.endlessRule name)
    | depth + 1 => do
      if e.children.length ≠ rule.params.length then
        throw (.ruleArity name rule.params.length e.children.length)
      let args ← e.children.attach.mapM fun ⟨c, _⟩ => expandWithin rules (depth + 1) c
      expandWithin rules depth (rule.body.substitute (.ofParams rule.params args))
termination_by (depth, e.size)
decreasing_by
  · exact .right _ (size_lt_of_mem_children ‹_›)
  · exact .right _ (size_lt_of_mem_children ‹_›)
  · exact .left _ _ (Nat.lt_succ_self _)

theorem expandWithin_of_not_invocation {rules : Rules} {e : Expr} (depth : Nat)
    (h : e.invocation? rules = none) :
    e.expandWithin rules depth = e.mapChildrenM (expandWithin rules depth) := by
  rw [expandWithin, h, mapChildrenM]
  simp

theorem expandWithin_zero {rules : Rules} {e : Expr} {name : String} {rule : Rule}
    (h : e.invocation? rules = some (name, rule)) :
    e.expandWithin rules 0 = .error (.endlessRule name) := by
  rw [expandWithin, h]

/-- The arguments are expanded at the depth of the invocation, the body one level deeper. -/
theorem expandWithin_succ {rules : Rules} {e : Expr} {name : String} {rule : Rule} (depth : Nat)
    (h : e.invocation? rules = some (name, rule))
    (harity : e.children.length = rule.params.length) :
    e.expandWithin rules (depth + 1) =
      (e.children.mapM (expandWithin rules (depth + 1))).bind fun args =>
        (rule.body.substitute (.ofParams rule.params args)).expandWithin rules depth := by
  rw [expandWithin, h]
  simp [harity, bind, Except.bind]

/-- How deep the bodies of rules may nest. -/
def expansionDepth : Nat := 64

/-- The expression with all invocations of rules expanded. -/
def expand (rules : Rules) (e : Expr) : Except Fault Expr := e.expandWithin rules expansionDepth

end Expr

/-- The kernel with all invocations expanded and no rules left. -/
def Kernel.expand (k : Kernel) : Except Fault Kernel := do
  if k.rules.isEmpty then return k
  let instructions ← k.instructions.mapM (·.mapExpressionsM (Expr.expand k.rules))
  return { k with instructions, rules := ∅ }

end KernelTyping
