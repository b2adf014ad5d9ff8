import KernelTyping.Proofs.Evaluation.Environment
import KernelTyping.Proofs.Evaluation.Growth
import KernelTyping.Proofs.Renaming

/-!
# KernelTyping.Proofs.Evaluation.Records — which calls are recorded

An evaluation records calls that it visits and no others (`recordsOnly_eval`).  In an expanded
expression these are calls in expanded form (`VisitsValue.expanded`).
-/

namespace KernelTyping.Evaluation

variable {ctx : Context} {N : Expr → Prop}

/-! ### Recorded calls are visited -/

/-- All recorded calls have a property. -/
def State.RecordsOnly (N : Expr → Prop) (s : State) : Prop :=
  ∀ call, s.renames.contains call = true → N call

/-- The evaluation records only calls with a property. -/
def RecordsOnly (N : Expr → Prop) {α : Type} (x : Eval α) : Prop :=
  ∀ s : State, s.RecordsOnly N → (exec x s).2.RecordsOnly N

theorem RecordsOnly.bind {α β : Type} {x : Eval α} {f : α → Eval β} (hx : RecordsOnly N x)
    (hf : ∀ a, RecordsOnly N (f a)) : RecordsOnly N (x >>= f) := by
  intro s hs
  have h := hx s hs
  rw [exec_bind]
  match hxs : exec x s with
  | (.ok a, m) =>
    rw [hxs] at h
    exact hf a m h
  | (.error e, m) =>
    rw [hxs] at h
    exact h

theorem compatible_recordsOnly : Compatible fun _ x y => x = y ∧ RecordsOnly N x where
  pure a := ⟨rfl, fun s hs => hs⟩
  bind h hfg := ⟨by rw [h.1, funext fun a => (hfg a).1], h.2.bind fun a => (hfg a).2⟩
  fault cause := ⟨rfl, fun s hs => hs⟩
  notKnownYet e := ⟨rfl, fun s hs => hs⟩

theorem recordsOnly_variableType (name : String) : RecordsOnly N (variableType ctx name) := by
  intro s hs
  obtain ⟨type?, missing, hexec⟩ := exists_exec_variableType ctx name
  rw [hexec]
  cases missing with
  | true => exact hs
  | false => exact hs

theorem recordsOnly_callResults {callee : Callee} {args : List Expr}
    {keywords : List (String × Expr)} (hcall : N (.call callee args keywords))
    (types : List (Option ElementType)) :
    RecordsOnly N (callResults ctx callee args keywords types) := by
  intro s hs
  rw [exec_callResults]
  match resolution ctx callee args keywords types s.table with
  | .error e => simpa [State.RecordsOnly] using hs
  | .ok (none, table) => exact hs
  | .ok (some (results, name), table) =>
    intro call hcontains
    have hcontains : (s.renames.insert (.call callee args keywords) name).contains call = true :=
      hcontains
    rw [Renames.contains_insert, Bool.or_eq_true, decide_eq_true_eq] at hcontains
    rcases hcontains with rfl | hcontains
    · exact hcall
    · exact hs call hcontains

theorem recordsOnly_eval {e : Expr}
    (h : ∀ callee args keywords, Visits e (.call callee args keywords) →
      N (.call callee args keywords)) : RecordsOnly N (eval ctx e) :=
  (compatible_recordsOnly.eval rfl e (fun name _ => ⟨rfl, recordsOnly_variableType name⟩)
    fun callee args keywords types hvisits =>
      ⟨rfl, recordsOnly_callResults (h callee args keywords hvisits) types⟩).2

theorem recordsOnly_evalTuple {e : Expr}
    (h : ∀ callee args keywords, VisitsValue true e (.call callee args keywords) →
      N (.call callee args keywords)) : RecordsOnly N (evalTuple ctx e) :=
  (compatible_recordsOnly.evalTuple rfl e (fun name _ => ⟨rfl, recordsOnly_variableType name⟩)
    fun callee args keywords types hvisits =>
      ⟨rfl, recordsOnly_callResults (h callee args keywords hvisits) types⟩).2

/-! ### Visits in an expanded expression -/

variable {rules : Rules} {c d e : Expr}

theorem invocation?_beginSubscript (inames : List String) (e : Expr)
    (h : e.invocation? rules = none) :
    (Expr.beginSubscript inames e).invocation? rules = none := by
  unfold Expr.beginSubscript
  cases hvar : e.varName? with
  | some name =>
    rw [Expr.varName?_eq_some.1 hvar, Expr.replaceVars_var]
    split <;> rfl
  | none =>
    rw [Expr.replaceVars_of_varName? hvar, Expr.mapChildren]
    exact Expr.invocation?_withChildren (by simp) h

theorem expanded_of_mem_operands (hc : c ∈ operands e) (h : e.Expanded rules) :
    c.Expanded rules := by
  have hchild {c : Expr} (hc : c ∈ e.children) : c.Expanded rules := (Expr.each_iff.1 h).2 c hc
  cases e with
  | subscript a is | linearSubscript a is =>
    obtain rfl := List.mem_singleton.1 hc
    exact hchild (by simp [Expr.children])
  | view inames body =>
    obtain rfl := List.mem_singleton.1 hc
    have hbody : body.Expanded rules := hchild (by simp [Expr.children])
    intro d hd
    rw [Expr.subterms_beginSubscript, List.mem_map] at hd
    obtain ⟨a, ha, rfl⟩ := hd
    exact invocation?_beginSubscript inames a (hbody a ha)
  | reduction op inames body | tupleReduction op inames body =>
    rw [operands] at hc
    split at hc
    · cases hc
    · exact hchild hc
  | _ => exact hchild hc

theorem Visits.expanded (h : Visits e d) (he : e.Expanded rules) : d.Expanded rules := by
  induction h with
  | self => exact he
  | operand hc _ ih => exact ih (expanded_of_mem_operands hc he)

theorem VisitsValue.expanded {tuple : Bool} (h : VisitsValue tuple e d) (he : e.Expanded rules) :
    d.Expanded rules := by
  have hsubterm {c : Expr} (hc : c ∈ e.subterms) : c.Expanded rules := fun d hd =>
    he d (Expr.mem_subterms_trans hd hc)
  cases h with
  | single h => exact h.expanded he
  | tuple hc h =>
    exact h.expanded (hsubterm (mem_subterms_of_mem_tupleOperands hc (Expr.mem_subterms_self _)))
  | call h => exact hsubterm (mem_subterms_of_tupleCall? h)

end KernelTyping.Evaluation
