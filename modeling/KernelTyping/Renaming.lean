import KernelTyping.Expansion
import KernelTyping.Renames
import KernelTyping.Table.Basic

/-!
# KernelTyping.Renaming — pointing calls at entries of the table

* `Kernel.rename`: each recorded call refers to its specialization.  Calls are recorded as they
  stand in the expanded kernel, so a call is looked up as it is written and then in expanded form.
  The body of a rule is shared by all its invocations, which may resolve differently; an invocation
  with recorded calls in its expansion is replaced by the renamed expansion.
* `Kernel.resolveKnown`: each bare name that has an entry in the table becomes that entry.
-/

namespace KernelTyping

namespace Expr

/-- The call with another callee. -/
def withCallee (callee : Callee) : Expr → Expr
  | call _ args keywords => call callee args keywords
  | e => e

/-- The call under its new name, if it has one. -/
def pointTo (name? : Option String) (e : Expr) : Expr :=
  match name? with
  | some name => e.withCallee (.entry name)
  | none => e

/-! ### Recorded calls -/

/-- The expression with each recorded call under its new name. -/
def renameCalls (renames : Renames) (e : Expr) : Expr :=
  (e.withChildren (e.children.attach.map fun ⟨c, _⟩ => renameCalls renames c)).pointTo
    (renames.get? e)
termination_by e.size
decreasing_by exact size_lt_of_mem_children ‹_›

theorem renameCalls_eq (renames : Renames) (e : Expr) :
    e.renameCalls renames = (e.mapChildren (renameCalls renames)).pointTo (renames.get? e) := by
  rw [renameCalls, mapChildren]
  simp

/-- The new name of a call, as it is written or in expanded form. -/
def newName? (rules : Rules) (renames : Renames) (e : Expr) : Except Fault (Option String) :=
  match renames.get? e with
  | some name => .ok (some name)
  | none => if e.isCall then (e.expand rules).map renames.get? else .ok none

/-- The expression with each recorded call under its new name, where calls were recorded in
expanded form. -/
def rename (rules : Rules) (renames : Renames) (e : Expr) : Except Fault Expr :=
  match e.invocation? rules with
  | some _ => do
    let expanded ← e.expand rules
    return if expanded.calls.any renames.contains then expanded.renameCalls renames else e
  | none => do
    let name? ← e.newName? rules renames
    let children ← e.children.attach.mapM fun ⟨c, _⟩ => rename rules renames c
    return (e.withChildren children).pointTo name?
termination_by e.size
decreasing_by exact size_lt_of_mem_children ‹_›

theorem rename_of_invocation {rules : Rules} {renames : Renames} {e : Expr}
    {r : String × Rule} (h : e.invocation? rules = some r) :
    e.rename rules renames = (e.expand rules).map fun expanded =>
      if expanded.calls.any renames.contains then expanded.renameCalls renames else e := by
  rw [rename, h]
  cases e.expand rules <;> rfl

theorem rename_of_not_invocation {rules : Rules} {renames : Renames} {e : Expr}
    (h : e.invocation? rules = none) :
    e.rename rules renames = (e.newName? rules renames).bind fun name? =>
      (e.mapChildrenM (rename rules renames)).map (pointTo name?) := by
  rw [rename, h]
  simp only [mapChildrenM, bind, Except.bind, pure, Except.pure]
  cases e.newName? rules renames with
  | error _ => rfl
  | ok name? => simp; cases e.children.mapM (rename rules renames) <;> rfl

/-! ### Known names -/

/-- A call of a bare name that is known becomes a call of the entry. -/
def resolveCall (known : String → Bool) : Expr → Expr
  | call (.bare name) args keywords =>
    call (if known name then .entry name else .bare name) args keywords
  | e => e

/-- The expression with all calls of known names resolved. -/
def resolveCalls (known : String → Bool) (e : Expr) : Expr := e.rebuild (resolveCall known)

end Expr

namespace Kernel

/-- The kernel with each recorded call under its new name.  Rules stay as they are. -/
def rename (k : Kernel) (renames : Renames) : Except Fault Kernel := do
  if renames.isEmpty then return k
  let instructions ← k.instructions.mapM (·.mapExpressionsM (Expr.rename k.rules renames))
  return { k with instructions }

/-- The kernel with all bare names that have an entry in the table resolved.  Rules shadow
entries. -/
def resolveKnown (k : Kernel) (table : Table) : Kernel :=
  let known name := table.contains name && !k.rules.contains name
  { k with
    instructions := k.instructions.map (·.mapExpressions (Expr.resolveCalls known))
    rules := k.rules.map fun _ rule => { rule with body := rule.body.resolveCalls known } }

end Kernel

end KernelTyping
