import KernelTyping.Proofs.Evaluation.Operands
import KernelTyping.Proofs.Expr.Subterms

/-!
# KernelTyping.Proofs.Evaluation.Environment — which names an evaluation looks up

Evaluation visits no variable and no callee that the expression does not mention.  So the types
found so far matter only at the names that the expression reads (`eval_congr_env`,
`evalTuple_congr_env`), and of the kernel only what is declared for them (`LooksLike`).
-/

namespace KernelTyping

open Evaluation

namespace Evaluation

theorem mem_dependencyNames_of_mem_operands {c e : Expr} {name : String} (hc : c ∈ operands e)
    (h : name ∈ c.dependencyNames) : name ∈ e.dependencyNames := by
  have hchild {c : Expr} (hc : c ∈ e.children) (h : name ∈ c.dependencyNames) :
      name ∈ e.dependencyNames := by
    rw [Expr.mem_dependencyNames] at h ⊢
    exact Expr.mem_subterms_of_mem_children hc h
  cases e with
  | subscript a is | linearSubscript a is =>
    obtain rfl := List.mem_singleton.1 hc
    exact hchild (by simp [Expr.children]) h
  | view inames body =>
    obtain rfl := List.mem_singleton.1 hc
    exact hchild (by simp [Expr.children]) (Expr.dependencyNames_beginSubscript h)
  | reduction op inames body | tupleReduction op inames body =>
    rw [operands] at hc
    split at hc
    · cases hc
    · exact hchild hc h
  | _ => exact hchild hc h

theorem mentions_of_mem_operands {c e : Expr} {callee : Callee} (hc : c ∈ operands e)
    (h : c.Mentions callee) : e.Mentions callee := by
  cases e with
  | subscript a is | linearSubscript a is =>
    obtain rfl := List.mem_singleton.1 hc
    exact .of_mem_children (by simp [Expr.children]) h
  | view inames body =>
    obtain rfl := List.mem_singleton.1 hc
    exact .of_mem_children (by simp [Expr.children]) (Expr.mentions_beginSubscript.1 h)
  | reduction op inames body | tupleReduction op inames body =>
    rw [operands] at hc
    split at hc
    · cases hc
    · exact .of_mem_children hc h
  | _ => exact .of_mem_children hc h

theorem Visits.mem_dependencyNames {e : Expr} {name : String} (h : Visits e (.var name)) :
    name ∈ e.dependencyNames := by
  generalize hd : Expr.var name = d at h
  induction h with
  | self e => exact Expr.mem_dependencyNames.2 (hd ▸ Expr.mem_subterms_self e)
  | operand hc _ ih => exact mem_dependencyNames_of_mem_operands hc (ih hd)

theorem Visits.mentions {e d : Expr} {callee : Callee} (h : Visits e d)
    (hd : d.Mentions callee) : e.Mentions callee := by
  induction h with
  | self => exact hd
  | operand hc _ ih => exact mentions_of_mem_operands hc (ih hd)

theorem mem_subterms_of_mem_tupleOperands {c d e : Expr} (hc : c ∈ tupleOperands e)
    (hd : d ∈ c.subterms) : d ∈ e.subterms := by
  induction e using Expr.inductionOnChildren with
  | step e ih =>
    cases e with
    | call callee args keywords => exact Expr.mem_subterms_of_mem_children hc hd
    | reduction op inames body =>
      rw [tupleOperands] at hc
      split at hc
      · have hbody : body ∈ (Expr.reduction op inames body).children := by simp [Expr.children]
        exact Expr.mem_subterms_of_mem_children hbody (ih body hbody hc)
      · cases hc
    | tupleReduction op inames bodies =>
      rw [tupleOperands] at hc
      split at hc
      · exact Expr.mem_subterms_of_mem_children hc hd
      · cases hc
    | _ => cases hc

theorem mem_subterms_of_tupleCall? {d e : Expr} (h : tupleCall? e = some d) : d ∈ e.subterms := by
  induction e using Expr.inductionOnChildren with
  | step e ih =>
    cases e with
    | call callee args keywords =>
      obtain rfl := Option.some.inj h
      exact Expr.mem_subterms_self _
    | reduction op inames body =>
      rw [tupleCall?] at h
      split at h
      · have hbody : body ∈ (Expr.reduction op inames body).children := by simp [Expr.children]
        exact Expr.mem_subterms_of_mem_children hbody (ih body hbody h)
      · cases h
    | _ => cases h

theorem exists_of_tupleCall? {d e : Expr} (h : tupleCall? e = some d) :
    ∃ callee args keywords, d = .call callee args keywords := by
  induction e using Expr.inductionOnChildren with
  | step e ih =>
    cases e with
    | call callee args keywords => exact ⟨callee, args, keywords, (Option.some.inj h).symm⟩
    | reduction op inames body =>
      rw [tupleCall?] at h
      split at h
      · exact ih body (by simp [Expr.children]) h
      · cases h
    | _ => cases h

theorem VisitsValue.mem_dependencyNames {tuple : Bool} {e : Expr} {name : String}
    (h : VisitsValue tuple e (.var name)) : name ∈ e.dependencyNames := by
  cases h with
  | single h => exact h.mem_dependencyNames
  | tuple hc h =>
    have := Expr.mem_dependencyNames.1 h.mem_dependencyNames
    exact Expr.mem_dependencyNames.2 (mem_subterms_of_mem_tupleOperands hc this)
  | call h => exact Expr.mem_dependencyNames.2 (mem_subterms_of_tupleCall? h)

theorem VisitsValue.mentions {tuple : Bool} {e d : Expr} {callee : Callee}
    (h : VisitsValue tuple e d) (hd : d.Mentions callee) : e.Mentions callee := by
  cases h with
  | single h => exact h.mentions hd
  | tuple hc h =>
    obtain ⟨a, ha, h⟩ := h.mentions hd
    exact ⟨a, mem_subterms_of_mem_tupleOperands hc ha, h⟩
  | call h =>
    obtain ⟨a, ha, hd⟩ := hd
    exact ⟨a, Expr.mem_subterms_trans ha (mem_subterms_of_tupleCall? h), hd⟩

/-! ### Types found so far -/

/-- Equality of evaluations. -/
theorem compatible_eq : Compatible fun _ x y => x = y where
  pure _ := rfl
  bind h hfg := by rw [h, funext hfg]
  fault _ := rfl
  notKnownYet _ := rfl

variable {ctx : Context} {E₁ E₂ : Env}

theorem variableType_congr_env {name : String} (h : E₁[name]? = E₂[name]?) :
    variableType { ctx with env := E₁ } name = variableType { ctx with env := E₂ } name := by
  simp only [variableType, h]

/-- Types matter only at the names that an expression reads. -/
theorem eval_congr_env {e : Expr} (h : ∀ name ∈ e.dependencyNames, E₁[name]? = E₂[name]?) :
    eval { ctx with env := E₁ } e = eval { ctx with env := E₂ } e := by
  refine compatible_eq.eval ?_ e (fun name hd => ?_) ?_
  · rfl
  · exact variableType_congr_env (h name hd.mem_dependencyNames)
  · intros; rfl

theorem evalTuple_congr_env {e : Expr} (h : ∀ name ∈ e.dependencyNames, E₁[name]? = E₂[name]?) :
    evalTuple { ctx with env := E₁ } e = evalTuple { ctx with env := E₂ } e := by
  refine compatible_eq.evalTuple ?_ e (fun name hd => ?_) ?_
  · rfl
  · exact variableType_congr_env (h name hd.mem_dependencyNames)
  · intros; rfl

/-! ### Kernels that look the same -/

/-- Two kernels look the same to an evaluation that looks up only the names in `V`. -/
structure LooksLike (target : Target) (V : String → Prop) (k l : Kernel) : Prop where
  inames : k.inames = l.inames
  params : k.params = l.params
  indexType : k.indexType = l.indexType
  functionMatchers : k.functionMatchers = l.functionMatchers
  symbol? (name : String) : k.symbol? target name = l.symbol? target name
  overload? (matcher name : String) (args : List ElementType) :
    target.overload? matcher k name args = target.overload? matcher l name args
  findVariable? {name : String} : V name → k.findVariable? name = l.findVariable? name

namespace LooksLike

variable {target : Target} {V : String → Prop} {k l : Kernel} {env : Env} {infer : Inference}
  (h : LooksLike target V k l)

include h

theorem variableType {name : String} (hname : V name) :
    variableType ⟨target, k, env, infer⟩ name = variableType ⟨target, l, env, infer⟩ name := by
  unfold Evaluation.variableType
  simp only [h.inames, h.params, h.indexType, h.symbol?, h.findVariable? hname]

theorem callResults (callee : Callee) (args : List Expr) (keywords : List (String × Expr))
    (types : List (Option ElementType)) :
    callResults ⟨target, k, env, infer⟩ callee args keywords types =
      callResults ⟨target, l, env, infer⟩ callee args keywords types := by
  have hspecialize (c : Callable) (incoming : Incoming) (t : Table) :
      c.specialize target infer k incoming t = c.specialize target infer l incoming t := by
    unfold Callable.specialize Callable.specializeMatched
    simp only [h.overload?]
  have hoverload (name : String) (args : List ElementType) :
      k.overload? target name args = l.overload? target name args := by
    unfold Kernel.overload?
    simp only [h.functionMatchers, h.overload?]
  unfold Evaluation.callResults resolve resolveEntry resolveBare
  simp only [hspecialize, hoverload]

theorem eval {e : Expr} (he : ∀ name ∈ e.dependencyNames, V name) :
    eval ⟨target, k, env, infer⟩ e = eval ⟨target, l, env, infer⟩ e :=
  compatible_eq.eval h.indexType e (fun _ hd => h.variableType (he _ hd.mem_dependencyNames))
    fun callee args keywords types _ => h.callResults callee args keywords types

theorem evalTuple {e : Expr} (he : ∀ name ∈ e.dependencyNames, V name) :
    evalTuple ⟨target, k, env, infer⟩ e = evalTuple ⟨target, l, env, infer⟩ e :=
  compatible_eq.evalTuple h.indexType e (fun _ hd => h.variableType (he _ hd.mem_dependencyNames))
    fun callee args keywords types _ => h.callResults callee args keywords types

end LooksLike

end Evaluation

/-! ### Instructions -/

theorem mem_foldl_dependencyNames {es : List Expr} {names : NameSet} {name : String} :
    name ∈ es.foldl (fun names e => names ∪ e.dependencyNames) names ↔
      name ∈ names ∨ ∃ e ∈ es, name ∈ e.dependencyNames := by
  induction es generalizing names with
  | nil => simp
  | cons e es ih => simp [ih, or_assoc]

/-- An instruction reads what its expressions read, and what it declares to read. -/
theorem Instruction.mem_readNames {i : Instruction} {name : String} :
    name ∈ i.readNames ↔ (∃ e ∈ i.expressions, name ∈ e.dependencyNames) ∨
      ∃ code reads writes, i.action = .foreign code reads writes ∧ name ∈ reads := by
  obtain ⟨id, action⟩ := i
  cases action with
  | foreign code reads writes =>
    simp [readNames, expressions, value?, targets, Std.ExtTreeSet.mem_ofList, and_assoc]
  | _ => simp [readNames, mem_foldl_dependencyNames]

theorem Instruction.mem_readNames_of_value? {i : Instruction} {value : Expr} {name : String}
    (hvalue : i.value? = some value) (h : name ∈ value.dependencyNames) : name ∈ i.readNames :=
  mem_readNames.2 (.inl ⟨value, by simp [expressions, hvalue], h⟩)

end KernelTyping
