import KernelTyping.Proofs.Inference.Locality
import KernelTyping.Proofs.Table.Transactions

/-!
# KernelTyping.Proofs.Inference.Reductions — reductions by themselves

`reductionTypes` gives the types of a reduction under the declared types of a kernel.  Inference on
the kernel with the reduction assigned to a new temporary comes to the same type, as the temporary
is a component by itself and its only writer is evaluated once, from the same table
(`exists_of_inferExpanded_lone`).  But inference expands the rules of the kernel first, and so it is
the expanded reduction that has this type (`reductionTypes_of_infer`).  With an invocation in it, the
reduction as it is written has no type, or another one (`foldingKernel_not_expanded`).
-/

namespace KernelTyping

open Evaluation Inference

/-! ### The types of a reduction -/

namespace Reduction

variable {ctx : Context} {r : Reduction} {type : ElementType} {s s' : State}

theorem toExpr_injective {r r' : Reduction} (h : r.toExpr = r'.toExpr) : r = r' := by
  obtain ⟨op, inames, body | bodies⟩ := r <;> obtain ⟨op', inames', body' | bodies'⟩ := r' <;>
    cases h <;> rfl

/-- A reduction with a single result is evaluated by evaluating what it folds over. -/
theorem eval_toExpr (h : r.op.isTuple = false) :
    eval ctx r.toExpr =
      r.evalArgs ctx >>= fun args => do return (← reductionResults r.op args).bind List.head? := by
  obtain ⟨op, inames, body | bodies⟩ := r
  · have h : op.isTuple = false := h
    simp only [toExpr, evalArgs, eval, h, Bool.false_eq_true, if_false, bind_assoc, pure_bind]
  · have h : op.isTuple = false := h
    simp only [toExpr, evalArgs, eval, h, Bool.false_eq_true, if_false, bind_assoc, pure_bind,
      List.mapM_subtype, List.unattach_attach]

/-- The type of a reduction over pairs is not that of a single value. -/
theorem eval_toExpr_of_isTuple (h : r.op.isTuple = true) :
    eval ctx r.toExpr = fault (.reductionNotSingle r.toExpr) := by
  obtain ⟨op, inames, body | bodies⟩ := r
  · have h : op.isTuple = true := h
    simp only [toExpr, eval, h, if_true]
  · have h : op.isTuple = true := h
    simp only [toExpr, eval, h, if_true]

theorem resultTypes_eq_ok {op : ReductionOp} (h : op.isTuple = false)
    {args results : List ElementType} :
    op.resultTypes args = .ok results ↔ ∃ type, args = [type] ∧ results = [type] := by
  unfold ReductionOp.resultTypes
  rw [h]
  match args with
  | [type] => simp [eq_comm]
  | [] | _ :: _ :: _ => simp

/-- Where an evaluation finds the type of a reduction, the reduction has one result and folds over
values of its type. -/
theorem exec_evalArgs (h : exec (eval ctx r.toExpr) s = (.ok (some type), s')) :
    exec (r.evalArgs ctx) s = (.ok (some [type]), s') ∧
      r.op.resultTypes [type] = .ok [type] := by
  cases hop : r.op.isTuple with
  | true =>
    rw [eval_toExpr_of_isTuple hop] at h
    cases h
  | false =>
    rw [eval_toExpr hop] at h
    obtain ⟨args, m, hargs, h⟩ := exec_bind_eq_ok.1 h
    obtain ⟨found, m', hfound, h⟩ := exec_bind_eq_ok.1 h
    obtain ⟨hhead, rfl⟩ := Prod.mk.inj h
    have hhead := Except.ok.inj hhead
    cases args with
    | none =>
      obtain rfl := eq_of_exec_pure hfound
      cases hhead
    | some args =>
      obtain ⟨results, m'', hresults, hfound⟩ := exec_bind_eq_ok.1 hfound
      obtain ⟨hsome, rfl⟩ := Prod.mk.inj hfound
      obtain rfl : some results = found := Except.ok.inj hsome
      have htypes := eq_ok_of_exec_lift hresults
      rw [htypes] at hresults
      obtain ⟨-, rfl⟩ := Prod.mk.inj hresults
      obtain ⟨value, rfl, rfl⟩ := (resultTypes_eq_ok hop).1 htypes
      obtain rfl := Option.some.inj hhead
      exact ⟨hargs, htypes⟩

end Reduction

/-- Where an evaluation under the declared types finds the type of a reduction, that is the type of
its result, and of what it folds over. -/
theorem reductionTypes_of_exec {target : Target} {fuel : Nat} {k : Kernel} {r : Reduction}
    {t : Table} {type : ElementType} {s : State}
    (h : exec (eval ⟨target, k, ∅, inferKernel target fuel true⟩ r.toExpr)
      (.start t.beginEdit.1) = (.ok (some type), s)) (unknownOk : Bool) :
    ∃ u, reductionTypes target fuel k r unknownOk t =
      .ok ([.known type], [.known type], u) := by
  obtain ⟨hargs, hresults⟩ := Reduction.exec_evalArgs h
  have ht : t.beginEdit.1.isEditing = true := by simp [Table.isEditing, Table.beginEdit]
  have hgrows : t.beginEdit.1.Grows s.table :=
    ((evolution_grows (inferKernel_grows target fuel true)).eval _ h (.start ht)).1
  obtain ⟨u, hu⟩ : ∃ u, s.table.commitEdit t.beginEdit.2 = .ok u :=
    ⟨_, Table.commitEdit_eq_ok.2 ⟨by simp [Table.closes, hgrows.depth_eq, Table.beginEdit], rfl⟩⟩
  refine ⟨u, ?_⟩
  unfold reductionTypes
  simp only [attempt_eq_some.2 hargs, ok_bind, hu, hresults, Outcome.lift_ok]
  rfl

/-! ### A lone variable -/

namespace Inference

variable {ctx : Context} {p q : Progress} {fuel : Nat}

/-- A lone variable that needs one pass only, and has a type after it, has the one that its writers
assign to it at the first visit. -/
theorem exists_of_settling_lone {m : Member} {failed : NameSet} {changed : Bool}
    (h : Settling ctx [m] true true q fuel [m] failed changed p) :
    ∃ type s, attempt (writtenType { ctx with env := p.env } m) p.table = .ok (some type, s) ∧
      q.env[m.name]? = some type := by
  have hends {fuel : Nat} {failed : NameSet} {changed : Bool} {r : Progress}
      (h : Settling ctx [m] true true q fuel [] failed changed r) : q = r := by
    cases h with
    | again honePass _ => cases honePass
    | done _ => rfl
  cases h with
  | confirm hattempt henv h =>
    obtain rfl := hends h
    exact ⟨_, _, hattempt, henv⟩
  | assign hattempt henv h =>
    obtain rfl := hends h
    exact ⟨_, _, hattempt, by rw [Progress.getElem?_assign, if_pos rfl]⟩
  | defer hattempt hfailed h =>
    -- the second visit finds nothing either, which is a fault
    cases h with
    | confirm hagain _ _ | assign hagain _ _ => rw [hattempt] at hagain; cases hagain
    | defer _ hfailed _ => simp at hfailed
    | giveUp _ _ hcomplete => cases hcomplete
  | giveUp _ _ hcomplete => cases hcomplete

/-- If only one variable has no type, and its writers do not read it, inference gives it the type
that they assign to it from the table that there is at the start. -/
theorem exists_of_inferExpanded_lone {x : String} {t : Table}
    (hopen : openNames ctx.kernel = [x])
    (hreads : ∀ i ∈ ctx.kernel.writers x, x ∉ i.readNames)
    (h : inferExpanded ctx true fuel t = .ok q) :
    ∃ type s, attempt (writtenType { ctx with env := startEnv ctx.kernel } (.ofName ctx.kernel x)) t =
      .ok (some type, s) ∧ q.env[x]? = some type := by
  obtain ⟨p, hp, hq⟩ := inferExpanded_eq_ok.1 h
  have hon : (Dependencies.ofKernel ctx.kernel [x]).on x = [] := by
    refine List.eq_nil_iff_forall_not_mem.2 fun y hy => ?_
    obtain rfl := List.mem_singleton.1 (on_ofKernel_subset hy)
    rw [Dependencies.on_ofKernel, if_pos (by simp), Dependencies.reads, List.mem_eraseDups,
      List.mem_filter, List.mem_flatMap] at hy
    obtain ⟨⟨i, hi, hread⟩, -⟩ := hy
    exact hreads i hi (Std.ExtTreeSet.mem_toList.1 hread)
  rw [openComponents, hopen, Dependencies.components_singleton hon] at hp
  have hsettle : settleComponent ctx (.ofKernel ctx.kernel [x]) true fuel
      ⟨startEnv ctx.kernel, t, .empty⟩ [x] = .ok p := by
    simpa using hp
  have honePass : needsOnePass (.ofKernel ctx.kernel [x]) [x] = true := by
    simp [needsOnePass, Dependencies.onItself, hon]
  rw [settleComponent_eq, honePass] at hsettle
  obtain ⟨type, s, hattempt, htype⟩ := exists_of_settling_lone (settle_eq_ok.1 hsettle)
  have hsteps : Steps ctx [] p q := steps_of_foldlM_resolveCalls (List.filter_subset_self _) hq
  exact ⟨type, s, hattempt, by rw [hsteps.env_eq_of_nil]; exact htype⟩

end Inference

/-! ### A kernel that stores a value -/

namespace Kernel

/-- The kernel with one more temporary, which has no type, and an instruction that assigns the value
to it. -/
def storing (k : Kernel) (name id : String) (value : Expr) : Kernel := { k with
  temporaries := k.temporaries ++ [⟨name, .unknown, .temporary⟩]
  instructions := k.instructions ++ [⟨id, .assign (.var name) value⟩] }

/-- Nothing in the kernel goes by that name. -/
structure Lacks (k : Kernel) (name : String) : Prop where
  undeclared : k.findVariable? name = none
  notParam : name ∉ k.params
  unread : ¬k.Reads name
  unwritten {i : Instruction} : i ∈ k.instructions → name ∉ i.writeNames

variable {k e f : Kernel} {name id : String} {value y : Expr}

theorem Lacks.expand (hname : k.Lacks name) (h : k.expand = .ok e) : e.Lacks name where
  undeclared := by
    rw [findVariable?_eq, declarations_of_expand h, ← findVariable?_eq, hname.undeclared]
  notParam := by
    obtain ⟨is, -, rfl⟩ := expand_eq_ok.1 h
    exact hname.notParam
  unread hread := hname.unread (reads_of_expand h hread)
  unwritten {i} hi := by
    obtain ⟨is, his, rfl⟩ := expand_eq_ok.1 h
    have hwrites : ∀ i ∈ is, name ∉ i.writeNames :=
      forall_right_of_forall₂ his fun j hj i hji => hji.writeNames_eq ▸ hname.unwritten hj
    exact hwrites i hi

theorem findVariable?_storing (hname : k.Lacks name) :
    (k.storing name id value).findVariable? name = some ⟨name, .unknown, .temporary⟩ := by
  have hnone := hname.undeclared
  rw [findVariable?, Option.or_eq_none_iff] at hnone
  simp [findVariable?, storing, List.find?_append, hnone]

/-- A value is stored expanded in the expanded kernel. -/
theorem expand_storing (h : (k.storing name id value).expand = .ok f) :
    ∃ e y, k.expand = .ok e ∧ value.expand k.rules = .ok y ∧ f = e.storing name id y := by
  obtain ⟨js, hjs, rfl⟩ := expand_eq_ok.1 h
  have hold := List.forall₂_take k.instructions.length hjs
  have hnew := List.forall₂_drop k.instructions.length hjs
  simp only [storing, List.take_left, List.drop_left] at hold hnew
  obtain ⟨j, js', hj, hnil, hdrop⟩ := List.forall₂_cons_left_iff.1 hnew
  obtain rfl := List.forall₂_nil_left_iff.1 hnil
  cases hj with
  | @assign _ _ target _ y htarget hy =>
    obtain ⟨is, -, rfl⟩ := htarget
    refine ⟨{ k with instructions := js.take k.instructions.length, rules := ∅ }, y,
      expand_eq_ok.2 ⟨_, hold, rfl⟩, hy, ?_⟩
    have hjs : js = js.take k.instructions.length ++ [⟨id, .assign (.var name) y⟩] := by
      conv_lhs => rw [← List.take_append_drop k.instructions.length js, hdrop]
      rfl
    exact congrArg (fun js => { k.storing name id value with instructions := js, rules := ∅ }) hjs
  | oblivious hvalue => cases hvalue

theorem untyped_storing (htyped : ∀ v ∈ k.declarations, v.dtype.isKnown = true) :
    untyped (k.storing name id value) = [⟨name, .unknown, .temporary⟩] := by
  have hnone {vs : List Variable} (h : vs ⊆ k.declarations) :
      vs.filter (!·.dtype.isKnown) = [] :=
    List.filter_eq_nil_iff.2 fun v hv => by simp [htyped v (h hv)]
  rw [untyped, storing, List.filter_append, List.filter_append,
    hnone (List.subset_append_right _ _), hnone (List.subset_append_left _ _)]
  rfl

theorem Lacks.not_contains_params (hname : k.Lacks name) : k.params.contains name = false := by
  rw [← Bool.not_eq_true, Std.ExtTreeSet.contains_iff_mem]
  exact hname.notParam

/-- The temporary is the only variable whose type is to be found. -/
theorem openNames_storing (htyped : ∀ v ∈ k.declarations, v.dtype.isKnown = true)
    (hname : k.Lacks name) : openNames (k.storing name id value) = [name] := by
  have hparams : (k.storing name id value).params.contains name = false :=
    hname.not_contains_params
  simp [openNames, untyped_storing htyped, hparams]

theorem startEnv_storing (htyped : ∀ v ∈ k.declarations, v.dtype.isKnown = true)
    (hname : k.Lacks name) : startEnv (k.storing name id value) = ∅ := by
  have hparams : (k.storing name id value).params.contains name = false :=
    hname.not_contains_params
  simp [startEnv, untyped_storing htyped, hparams]

/-- The temporary is written by the new instruction only. -/
theorem writers_storing (hname : k.Lacks name) (hid : id ∉ k.instructions.map (·.id)) :
    (k.storing name id value).writers name = [⟨id, .assign (.var name) value⟩] := by
  have hold : k.instructions.filter (name ∈ ·.writeNames) = [] :=
    List.filter_eq_nil_iff.2 fun i hi => by simp [hname.unwritten hi]
  have hids : (k.storing name id value).writerIds name = [id] := by
    rw [writerIds, storing, List.filter_append, hold]
    simp [Instruction.writeNames, Instruction.targets, Assignee.varName, List.eraseDups_cons]
  have hfirst : k.instructions.find? (·.id == id) = none :=
    List.find?_eq_none.2 fun i hi heq => hid (by simpa using ⟨i, hi, by simpa using heq⟩)
  rw [writers, hids]
  simp [findInstruction?, storing, hfirst]

/-- An evaluation that does not look up the temporary sees in the expanded kernel what it sees in
the kernel. -/
theorem looksLike_storing {target : Target} (htarget : target.SeesIndexType)
    (h : k.expand = .ok e) : LooksLike target (· ≠ name) (e.storing name id value) k := by
  obtain ⟨is, -, rfl⟩ := expand_eq_ok.1 h
  exact {
    inames := rfl
    params := rfl
    indexType := rfl
    functionMatchers := rfl
    symbol? := fun _ => findSome?_congr fun _ _ => htarget.symbol? rfl
    overload? := fun _ _ _ => htarget.overload? rfl
    findVariable? := fun {other} hother => by
      simp [findVariable?, storing, List.find?_append, Ne.symm hother] }

theorem mem_readNames_assign {other : String} :
    other ∈ (⟨id, .assign (.var name) value⟩ : Instruction).readNames ↔
      other ∈ value.dependencyNames := by
  simp [Instruction.readNames, Instruction.expressions, Instruction.value?, Instruction.targets,
    Assignee.indices]

/-- The expanded value does not read a name that neither the value nor the kernel reads. -/
theorem not_mem_dependencyNames_of_storing (hname : k.Lacks name)
    (hread : name ∉ value.dependencyNames)
    (h : (k.storing name id value).expand = .ok (e.storing name id y)) :
    name ∉ y.dependencyNames := by
  intro hmem
  have hreads : (e.storing name id y).Reads name :=
    .inl ⟨⟨id, .assign (.var name) y⟩, by simp [storing], mem_readNames_assign.2 hmem⟩
  rcases reads_of_expand h hreads with ⟨i, hi, hi'⟩ | hrule
  · rcases List.mem_append.1 hi with hold | hnew
    · exact hname.unread (.inl ⟨i, hold, hi'⟩)
    · obtain rfl := List.mem_singleton.1 hnew
      exact hread (mem_readNames_assign.1 hi')
  · exact hname.unread (.inr hrule)

end Kernel

/-- Inference on a kernel with known types gives a new temporary the type of the value that is
assigned to it, evaluated under the declared types. -/
theorem Inference.exists_exec_of_storing {target : Target} {infer : Inference} {fuel : Nat}
    {e : Kernel} {name id : String} {value : Expr} {t : Table} {p : Progress}
    (htyped : ∀ v ∈ e.declarations, v.dtype.isKnown = true) (hname : e.Lacks name)
    (hid : id ∉ e.instructions.map (·.id)) (hread : name ∉ value.dependencyNames)
    (h : inferExpanded ⟨target, e.storing name id value, startEnv (e.storing name id value), infer⟩
      true fuel t = .ok p) :
    ∃ type s, exec (eval ⟨target, e.storing name id value, ∅, infer⟩ value) (.start t) =
      (.ok (some type), s) ∧ p.env[name]? = some type := by
  have hwriters : (e.storing name id value).writers name = [⟨id, .assign (.var name) value⟩] :=
    Kernel.writers_storing hname hid
  have hreads : ∀ i ∈ (e.storing name id value).writers name, name ∉ i.readNames := by
    rw [hwriters]
    simpa [Kernel.mem_readNames_assign] using hread
  obtain ⟨type, s, hattempt, htype⟩ := exists_of_inferExpanded_lone
    (Kernel.openNames_storing htyped hname) hreads h
  rw [Member.ofName, hwriters, Kernel.startEnv_storing htyped hname, writtenType_lone,
    attempt_eq_some] at hattempt
  exact ⟨type, s, hattempt, htype⟩

/-- A reduction expands to one of the same kind. -/
theorem Reduction.exists_of_expand {rules : Rules} {r : Reduction} {y : Expr}
    (h : r.toExpr.expand rules = .ok y) : ∃ r' : Reduction, y = r'.toExpr := by
  have hnode : r.toExpr.invocation? rules = none := by
    obtain ⟨op, inames, _ | _⟩ := r <;> rfl
  rw [Expr.expand, Expr.expandWithin_of_not_invocation _ hnode, Expr.mapChildrenM] at h
  obtain ⟨cs, hcs, h⟩ := bind_eq_ok.1 h
  obtain rfl := Except.ok.inj h
  obtain ⟨op, inames, body | bodies⟩ := r
  · obtain ⟨c, rfl⟩ : ∃ c, cs = [c] := by
      have := (mapM_eq_ok.1 hcs).length_eq
      exact List.length_eq_one_iff.1 this.symm
    exact ⟨⟨op, inames, .single c⟩, rfl⟩
  · exact ⟨⟨op, inames, .tuple cs⟩, rfl⟩

/-- **A reduction by itself, and in a kernel.**  If inference succeeds on a kernel with known types
to which a new temporary and the assignment of a reduction to it are added, then the reduction, with
the rules of the kernel expanded in it, has by itself the type that inference finds for the
temporary.  This is the reduction as it is written if it has no invocation in it. -/
theorem reductionTypes_of_infer {target : Target} (htarget : target.SeesIndexType) {fuel : Nat}
    {k k' : Kernel} {t t' : Table} {name id : String} {r : Reduction}
    (htyped : ∀ v ∈ k.declarations, v.dtype.isKnown = true) (hname : k.Lacks name)
    (hread : name ∉ r.toExpr.dependencyNames) (hid : id ∉ k.instructions.map (·.id))
    (h : infer target (fuel + 1) true (k.storing name id r.toExpr) t = .ok (k', t')) :
    ∃ type r', k'.findVariable? name = some ⟨name, .known type, .temporary⟩ ∧
      r.toExpr.expand k.rules = .ok r'.toExpr ∧
      (∃ u, reductionTypes target fuel k r' false t = .ok ([.known type], [.known type], u)) ∧
      (r.toExpr.Expanded k.rules → r' = r) := by
  obtain ⟨u, hu, -⟩ := infer_eq_ok_iff.1 h
  obtain ⟨ht, f, p, hf, hp, hfinish⟩ := inferWith_eq_ok.1 hu
  obtain ⟨e, y, he, hy, rfl⟩ := Kernel.expand_storing hf
  obtain ⟨r', rfl⟩ := Reduction.exists_of_expand hy
  have hunread := Kernel.not_mem_dependencyNames_of_storing hname hread hf
  have htyped : ∀ v ∈ e.declarations, v.dtype.isKnown = true := by
    rwa [Kernel.declarations_of_expand he]
  obtain ⟨type, s, hexec, htype⟩ := exists_exec_of_storing htyped (hname.expand he)
    (by rwa [Kernel.ids_of_expand he]) hunread hp
  have hsees : LooksLike target (· ≠ name) (e.storing name id r'.toExpr) k :=
    Kernel.looksLike_storing htarget he
  rw [hsees.eval fun other hother => ne_of_mem_of_not_mem hother hunread] at hexec
  refine ⟨type, r', ?_, hy, reductionTypes_of_exec hexec false, fun hexpanded => ?_⟩
  · rw [findVariable?_of_finishKernel hfinish, Kernel.findVariable?_storing hname, htype]
    rfl
  · have hsame : r.toExpr.expand k.rules = .ok r.toExpr :=
      Expr.expandWithin_of_expanded _ hexpanded
    exact Reduction.toExpr_injective (Except.ok.inj (hy.symm.trans hsame))

/-! ### Reductions with invocations -/

/-- A kernel with typed variables and two rules, one of them for a name that the target matches as
well. -/
def foldingKernel : Kernel := { Kernel.empty "k" with
  args := [⟨"x", .known .float32, .input⟩]
  inames := .ofList ["i"]
  rules := ((∅ : Rules).insert "sq" ⟨["a"], .nary .product [.var "a", .var "a"]⟩).insert "sqrt"
    ⟨["a"], .cast .int32 (.var "a")⟩ }

/-- The sum of what a rule makes of a variable. -/
def sumOf (rule : String) : Reduction := ⟨.sum, ["i"], .single (.call (.bare rule) [.var "x"] [])⟩

theorem lacks_foldingKernel : foldingKernel.Lacks "w" where
  undeclared := by decide
  notParam := by simp [foldingKernel, Kernel.empty]
  unread := by
    rintro (⟨i, hi, -⟩ | ⟨rule, r, hr, hread⟩)
    · cases hi
    · have hbody : r.body.dependencyNames.contains "w" = false := by
        simp only [foldingKernel, Std.ExtTreeMap.getElem?_insert] at hr
        split at hr
        · obtain rfl := Option.some.inj hr
          cbv
        · split at hr
          · obtain rfl := Option.some.inj hr
            cbv
          · simp at hr
      rw [Std.ExtTreeSet.mem_iff_contains, hbody] at hread
      cases hread
  unwritten hi := nomatch hi

theorem infer_foldingKernel_sq :
    (infer .cLike 5 true (foldingKernel.storing "w" "w" (sumOf "sq").toExpr) .empty).map
      (·.1.findVariable? "w") = .ok (some ⟨"w", .known .float32, .temporary⟩) := by cbv

theorem infer_foldingKernel_sqrt :
    (infer .cLike 5 true (foldingKernel.storing "w" "w" (sumOf "sqrt").toExpr) .empty).map
      (·.1.findVariable? "w") = .ok (some ⟨"w", .known .int32, .temporary⟩) := by cbv

theorem reductionTypes_of_infer_foldingKernel :
    Target.cLike.SeesIndexType ∧ foldingKernel.Lacks "w" ∧
      ∃ k' t' r' u, infer .cLike 5 true
          (foldingKernel.storing "w" "w" (sumOf "sq").toExpr) .empty = .ok (k', t') ∧
        k'.findVariable? "w" = some ⟨"w", .known .float32, .temporary⟩ ∧
        (sumOf "sq").toExpr.expand foldingKernel.rules = .ok r'.toExpr ∧
        reductionTypes .cLike 4 foldingKernel r' false .empty =
          .ok ([.known .float32], [.known .float32], u) := by
  have hread : (sumOf "sq").toExpr.dependencyNames.contains "w" = false := by cbv
  obtain ⟨⟨k', t'⟩, h, hfound⟩ := map_eq_ok.1 infer_foldingKernel_sq
  obtain ⟨type, r', htype, hexpand, ⟨u, hu⟩, -⟩ := reductionTypes_of_infer seesIndexType_cLike
    (by decide) lacks_foldingKernel (by simp [Std.ExtTreeSet.mem_iff_contains, hread]) (by decide) h
  rw [hfound] at htype
  cases htype
  exact ⟨seesIndexType_cLike, lacks_foldingKernel, k', t', r', u, h, hfound, hexpand, hu⟩

/-- By itself a reduction is not expanded.  The invocation of one rule leaves it without a type; that
of the other is taken for a call of the function of the target, which has another type. -/
theorem foldingKernel_not_expanded :
    ((infer .cLike 5 true (foldingKernel.storing "w" "w" (sumOf "sq").toExpr) .empty).map
        (·.1.findVariable? "w") = .ok (some ⟨"w", .known .float32, .temporary⟩) ∧
      (reductionTypes .cLike 4 foldingKernel (sumOf "sq") false .empty).map (·.2.1) =
        .error (.fault (.accumulatorUndetermined (sumOf "sq").toExpr))) ∧
    ((infer .cLike 5 true (foldingKernel.storing "w" "w" (sumOf "sqrt").toExpr) .empty).map
        (·.1.findVariable? "w") = .ok (some ⟨"w", .known .int32, .temporary⟩) ∧
      (reductionTypes .cLike 4 foldingKernel (sumOf "sqrt") false .empty).map (·.2.1) =
        .ok [.known .float32]) :=
  ⟨⟨infer_foldingKernel_sq, by cbv⟩, infer_foldingKernel_sqrt, by cbv⟩

end KernelTyping
