import KernelTyping.Inference.Basic
import KernelTyping.Proofs.Evaluation.Records
import KernelTyping.Proofs.Evaluation.Rerun

/-!
# KernelTyping.Proofs.Inference.Writers — attempts at the writers of a variable

What holds of the evaluation of all values holds of the types that instructions assign
(`Compatible.writtenType`) and of the visits that only resolve calls (`Compatible.visit`).  An
attempt finds something, or it finds nothing, also where it meets a temporary fault
(`attempt_eq_some`, `attempt_eq_none`).
-/

namespace KernelTyping

open Evaluation

/-! ### Relations between evaluations -/

namespace Evaluation

/-- The relation holds between two contexts at every value of an instruction. -/
structure RelatedAt (R : (α : Type) → Eval α → Eval α → Prop) (ctx₁ ctx₂ : Context)
    (i : Instruction) : Prop where
  eval {value : Expr} : i.value? = some value → R _ (eval ctx₁ value) (eval ctx₂ value)
  evalTuple {value : Expr} :
    i.value? = some value → R _ (evalTuple ctx₁ value) (evalTuple ctx₂ value)

namespace Compatible

open Inference

variable {R : (α : Type) → Eval α → Eval α → Prop} (hR : Compatible R) {ctx₁ ctx₂ : Context}

include hR

theorem writerType {name : String} {i : Instruction} (h : RelatedAt R ctx₁ ctx₂ i) :
    R _ (writerType ctx₁ name i) (writerType ctx₂ name i) := by
  unfold Inference.writerType
  split
  case h_1 _ value hi => exact h.eval (by simp [Instruction.value?, hi])
  case h_2 targets value hi =>
    have hvalue : i.value? = some value := by simp [Instruction.value?, hi]
    split
    · refine hR.bind (hR.bind (h.evalTuple hvalue) fun types => ?_) fun assigned => hR.pure _
      cases types with
      | none => exact hR.pure none
      | some types =>
        dsimp only
        split
        · exact hR.pure _
        · exact hR.fault _
    · exact h.eval hvalue
  all_goals exact hR.pure none

theorem writtenType {m : Member} (h : ∀ i ∈ m.writers, RelatedAt R ctx₁ ctx₂ i) :
    R _ (writtenType ctx₁ m) (writtenType ctx₂ m) :=
  hR.bind (hR.mapM fun i hi => hR.writerType (h i hi)) fun _ => hR.lift _

theorem visit {i : Instruction} (h : RelatedAt R ctx₁ ctx₂ i) :
    R _ (visit ctx₁ i) (visit ctx₂ i) := by
  unfold Inference.visit
  split
  case h_1 _ value hi =>
    exact hR.bind (h.eval (by simp [Instruction.value?, hi])) fun _ => hR.pure _
  case h_2 targets value hi =>
    have hvalue : i.value? = some value := by simp [Instruction.value?, hi]
    split
    · exact hR.bind (h.evalTuple hvalue) fun _ => hR.pure _
    · exact hR.bind (h.eval hvalue) fun _ => hR.pure _
  all_goals exact hR.pure _

end Compatible

theorem relatedAt_congr_env {ctx : Context} {E₁ E₂ : Env} {i : Instruction}
    (h : ∀ read ∈ i.readNames, E₁[read]? = E₂[read]?) :
    RelatedAt (fun _ x y => x = y) { ctx with env := E₁ } { ctx with env := E₂ } i where
  eval hvalue := eval_congr_env fun read hread =>
    h read (Instruction.mem_readNames_of_value? hvalue hread)
  evalTuple hvalue := evalTuple_congr_env fun read hread =>
    h read (Instruction.mem_readNames_of_value? hvalue hread)

theorem LooksLike.relatedAt {target : Target} {V : String → Prop} {k l : Kernel} {env : Env}
    {infer : Inference} {i : Instruction} (h : LooksLike target V k l)
    (hi : ∀ read ∈ i.readNames, V read) :
    RelatedAt (fun _ x y => x = y) ⟨target, k, env, infer⟩ ⟨target, l, env, infer⟩ i where
  eval hvalue := h.eval fun read hread => hi read (Instruction.mem_readNames_of_value? hvalue hread)
  evalTuple hvalue :=
    h.evalTuple fun read hread => hi read (Instruction.mem_readNames_of_value? hvalue hread)

/-- A relation between states that evaluations respect holds of the visits of an instruction. -/
theorem Evolution.relatedAt {ctx : Context} {T : State → State → Prop} (hT : Evolution ctx T)
    (i : Instruction) :
    RelatedAt (fun _ x y => x = y ∧ Evolves T x) ctx ctx i where
  eval _ := ⟨rfl, hT.eval _⟩
  evalTuple _ := ⟨rfl, hT.evalTuple _⟩

/-- All calls that are visited in the value of an instruction have a property. -/
def CallsAt (N : Expr → Prop) (i : Instruction) : Prop :=
  ∀ value tuple callee args keywords, i.value? = some value →
    VisitsValue tuple value (.call callee args keywords) → N (.call callee args keywords)

theorem relatedAt_recordsOnly {ctx : Context} {N : Expr → Prop} {i : Instruction}
    (h : CallsAt N i) : RelatedAt (fun _ x y => x = y ∧ RecordsOnly N x) ctx ctx i where
  eval hvalue := ⟨rfl, recordsOnly_eval fun callee args keywords hvisits =>
    h _ _ callee args keywords hvalue (.single hvisits)⟩
  evalTuple hvalue := ⟨rfl, recordsOnly_evalTuple fun callee args keywords hvisits =>
    h _ _ callee args keywords hvalue hvisits⟩

section Linked

variable {ctx : Context} {R : String → Prop} {i : Instruction}
  (hgrows : GrowsTable ctx.infer) (h : ∀ value, i.value? = some value → CallsOnly R value)

include hgrows h

variable (ctx) in
theorem relatedAt_sameResults (hinfer : SameTypes R ctx.infer) :
    RelatedAt (SameResults R) ctx ctx i where
  eval hvalue := sameResults_eval hgrows hinfer (h _ hvalue)
  evalTuple hvalue := sameResults_evalTuple hgrows hinfer (h _ hvalue)

variable (ctx) in
theorem relatedAt_repeats (hinfer : Reruns R ctx.infer) :
    RelatedAt (fun _ x y => x = y ∧ Repeats R x) ctx ctx i where
  eval hvalue := ⟨rfl, repeats_eval hgrows hinfer (h _ hvalue)⟩
  evalTuple hvalue := ⟨rfl, repeats_evalTuple hgrows hinfer (h _ hvalue)⟩

end Linked

end Evaluation

namespace Inference

variable {ctx : Context}

/-- The type of a variable depends only on the types of what its writers read. -/
theorem writtenType_congr_env {E₁ E₂ : Env} {m : Member}
    (h : ∀ i ∈ m.writers, ∀ read ∈ i.readNames, E₁[read]? = E₂[read]?) :
    writtenType { ctx with env := E₁ } m = writtenType { ctx with env := E₂ } m :=
  compatible_eq.writtenType fun i hi => relatedAt_congr_env (h i hi)

/-- What a lone writer assigns is the type of its value. -/
theorem writtenType_lone (ctx : Context) (name id : String) (target : Assignee) (value : Expr) :
    writtenType ctx ⟨name, [⟨id, .assign target value⟩]⟩ = eval ctx value := by
  simp only [writtenType, writerType, List.mapM_cons, List.mapM_nil, bind_assoc, pure_bind,
    ElementType.combine_singleton, lift_ok, bind_pure]

/-! ### Attempts -/

variable {α : Type} {x : Eval (Option α)} {t : Table}

theorem attempt_eq (x : Eval (Option α)) (t : Table) :
    attempt x t =
      match exec x (.start t) with
      | (.ok found, s) => .ok (found, s)
      | (.error .exhausted, _) => .error .exhausted
      | (.error (.fault f), s) => if f.isTemporary then .ok (none, s) else .error (.fault f) := rfl

theorem attempt_eq_some {a : α} {s : State} :
    attempt x t = .ok (some a, s) ↔ exec x (.start t) = (.ok (some a), s) := by
  rw [attempt_eq]
  match exec x (.start t) with
  | (.ok found, s) => simp
  | (.error .exhausted, _) => simp
  | (.error (.fault f), s) => by_cases h : f.isTemporary <;> simp [h]

/-- The state that an attempt leaves is that of the evaluation, whatever is found. -/
theorem snd_of_attempt {found : Option α} {s : State} (h : attempt x t = .ok (found, s)) :
    (exec x (.start t)).2 = s := by
  rw [attempt_eq] at h
  match hx : exec x (.start t), h with
  | (.ok _, _), h =>
    obtain ⟨-, rfl⟩ := Prod.mk.inj (Except.ok.inj h)
    rfl
  | (.error (.fault f), s'), h =>
    dsimp only at h
    split at h
    · obtain ⟨-, rfl⟩ := Prod.mk.inj (Except.ok.inj h)
      rfl
    · cases h

variable {T : State → State → Prop} (hT : Evolution ctx T)

include hT

variable (ctx) in
theorem evolution_writtenType (m : Member) : Evolves T (writtenType ctx m) :=
  (hT.compatible.writtenType fun i _ => hT.relatedAt i).2

variable (ctx) in
theorem evolution_visit (i : Instruction) : Evolves T (visit ctx i) :=
  (hT.compatible.visit (hT.relatedAt i)).2

end Inference

end KernelTyping
