import Mathlib
import KernelTyping.Proofs.Expansion.Nesting
import KernelTyping.Proofs.Inference.Writers
import KernelTyping.Target.CLike

/-!
# KernelTyping.Proofs.Inference.LastingFaults — temporary faults stay inside

Only the cast of an operand whose type is not known yet is a temporary fault, and only evaluation
meets it.  An attempt turns it into "nothing found" (`lasting_attempt`).  What else inference does
can fail, but with faults that last: so do requests, and so does the specialization of a callee,
however deep kernels call each other (`fault_lasting`).
-/

namespace KernelTyping

/-! ### What a computation fails with -/

/-- Whatever the computation fails with has the property. -/
def FailsOnly {ε α : Type} (P : ε → Prop) (x : Except ε α) : Prop := ∀ e, x = .error e → P e

namespace FailsOnly

variable {ε α β : Type} {P : ε → Prop} {x : Except ε α}

theorem ok (a : α) : FailsOnly P (.ok a : Except ε α) := nofun

theorem error {e : ε} (h : P e) : FailsOnly P (.error e : Except ε α) := by
  intro e' he
  obtain rfl := Except.error.inj he
  exact h

theorem bind {f : α → Except ε β} (hx : FailsOnly P x) (hf : ∀ a, FailsOnly P (f a)) :
    FailsOnly P (x >>= f) := by
  intro e he
  rcases bind_eq_error.1 he with he | ⟨a, -, he⟩
  · exact hx e he
  · exact hf a e he

theorem map (f : α → β) (hx : FailsOnly P x) : FailsOnly P (x.map f) := by
  intro e he
  cases x with
  | ok a => cases he
  | error e' =>
    obtain rfl := Except.error.inj he
    exact hx e' rfl

theorem mapM {f : α → Except ε β} {xs : List α} (hf : ∀ x ∈ xs, FailsOnly P (f x)) :
    FailsOnly P (xs.mapM f) := by
  induction xs with
  | nil => exact ok []
  | cons x xs ih =>
    rw [List.mapM_cons]
    refine (hf x (by simp)).bind fun y => ?_
    refine (ih fun z hz => hf z (by simp [hz])).bind fun ys => ?_
    exact ok _

theorem foldlM {f : β → α → Except ε β} {xs : List α} (hf : ∀ b, ∀ x ∈ xs, FailsOnly P (f b x))
    (b : β) : FailsOnly P (xs.foldlM f b) := by
  induction xs generalizing b with
  | nil => exact ok b
  | cons x xs ih =>
    rw [List.foldlM_cons]
    exact (hf b x (by simp)).bind fun b => ih (fun b y hy => hf b y (by simp [hy])) b

end FailsOnly

namespace Fault

/-- The fault is there to stay. -/
def Lasts (f : Fault) : Prop := f.isTemporary = false

theorem lasts_iff {f : Fault} : f.Lasts ↔ f.kind = .typing ∨ f.kind = .contract := by
  unfold Lasts isTemporary
  cases f.kind <;> simp

end Fault

/-- Only faults can be temporary. -/
def Halt.Lasts : Halt → Prop
  | .fault f => f.Lasts
  | .exhausted => True

theorem FailsOnly.lift {α : Type} {x : Except Fault α} (h : FailsOnly Fault.Lasts x) :
    FailsOnly Halt.Lasts (liftM x : Outcome α) := by
  cases x with
  | ok a => exact .ok a
  | error f => exact .error (h f rfl)

/-! ### Rules -/

namespace Expr

variable (rules : Rules)

theorem lasting_expand (e : Expr) : FailsOnly Fault.Lasts (e.expand rules) := by
  intro f h
  cases rejects_of_expandWithin h with
  | endless _ _ => rfl
  | arity _ _ _ => rfl

theorem lasting_rename (renames : Renames) (e : Expr) :
    FailsOnly Fault.Lasts (e.rename rules renames) := by
  induction e using inductionOnChildren with
  | step e ih =>
    cases hinvocation : e.invocation? rules with
    | some rule =>
      rw [rename_of_invocation hinvocation]
      exact (lasting_expand rules e).map _
    | none =>
      have hname : FailsOnly Fault.Lasts (e.newName? rules renames) := by
        unfold newName?
        split
        · exact .ok _
        · split
          · exact (lasting_expand rules e).map _
          · exact .ok _
      rw [rename_of_not_invocation hinvocation]
      refine hname.bind fun name? => FailsOnly.map _ ?_
      exact (FailsOnly.mapM ih).bind fun _ => .ok _

end Expr

theorem Instruction.lasting_mapExpressionsM {f : Expr → Except Fault Expr}
    (hf : ∀ e, FailsOnly Fault.Lasts (f e)) (i : Instruction) :
    FailsOnly Fault.Lasts (i.mapExpressionsM f) := by
  have hindices (a : Assignee) : FailsOnly Fault.Lasts (a.mapIndicesM f) :=
    (FailsOnly.mapM fun e _ => hf e).bind fun _ => .ok _
  unfold mapExpressionsM
  split
  · exact (hindices _).bind fun _ => (hf _).bind fun _ => .ok _
  · exact (FailsOnly.mapM fun a _ => hindices a).bind fun _ => (hf _).bind fun _ => .ok _
  all_goals exact .ok _

namespace Kernel

variable (k : Kernel)

theorem lasting_expand : FailsOnly Fault.Lasts k.expand := by
  unfold expand
  split
  · exact .ok k
  · refine (FailsOnly.mapM fun i _ => ?_).bind fun _ => .ok _
    exact i.lasting_mapExpressionsM (Expr.lasting_expand k.rules)

theorem lasting_rename (renames : Renames) : FailsOnly Fault.Lasts (k.rename renames) := by
  unfold rename
  split
  · exact .ok k
  · refine (FailsOnly.mapM fun i _ => ?_).bind fun _ => .ok _
    exact i.lasting_mapExpressionsM (Expr.lasting_rename k.rules renames)

/-! ### What is checked in the end -/

theorem lasting_checkFunctionsResolved (t : Table) :
    FailsOnly Fault.Lasts (k.checkFunctionsResolved t) := by
  have hcall (i : String) (e : Expr) {f : Fault} (h : t.callFault? k.name i e = some f) :
      f.Lasts := by
    unfold Table.callFault? at h
    split at h
    · obtain rfl := Option.some.inj h
      rfl
    · split at h
      · cases h
      · obtain rfl := Option.some.inj h
        rfl
    · cases h
  unfold checkFunctionsResolved
  refine k.lasting_expand.bind fun expanded => ?_
  dsimp only
  split
  case h_1 f hf =>
    obtain ⟨i, -, hi⟩ := List.exists_of_findSome?_eq_some hf
    obtain ⟨e, -, he⟩ := List.exists_of_findSome?_eq_some hi
    exact .error (hcall i.id e he)
  case h_2 => exact .ok _

theorem lasting_checkVariablesTyped : FailsOnly Fault.Lasts k.checkVariablesTyped := by
  unfold checkVariablesTyped
  split
  · exact .error rfl
  · exact .ok _

end Kernel

theorem Table.lasting_commitEdit (t : Table) (c : Checkpoint) :
    FailsOnly Fault.Lasts (t.commitEdit c) := by
  unfold commitEdit
  split
  · split <;> exact .ok _
  · exact .error rfl

/-! ### Operators -/

theorem ElementType.lasting_promote (a b : ElementType) :
    FailsOnly Fault.Lasts (a.promote b) := by
  unfold promote
  split
  · exact .ok _
  · exact .ok _
  · exact .ok _
  · split
    · exact .ok _
    · exact .error rfl

theorem ElementType.lasting_combine (types : List (Option ElementType)) :
    FailsOnly Fault.Lasts (combine types) := by
  unfold combine
  split
  · exact .ok _
  · split
    · split
      · exact .ok _
      · exact .error rfl
    · exact FailsOnly.map _ (FailsOnly.foldlM (fun a b _ => a.lasting_promote b) _)

theorem Constant.lasting_type (c : Constant) : FailsOnly Fault.Lasts c.type := by
  unfold type
  split
  · exact .ok _
  · exact .ok _
  · exact .ok _
  · unfold intType
    split
    · exact .ok _
    · split
      · exact .ok _
      · exact .error rfl
  · exact .ok _
  · split
    · exact .ok _
    · exact .error rfl

theorem NaryOp.lasting_type (op : NaryOp) (operands : List (Expr × Option ElementType)) :
    FailsOnly Fault.Lasts (op.type operands) := by
  cases op with
  | sum | product => exact ElementType.lasting_combine _
  | bitAnd | bitOr | bitXor | min | max => exact ElementType.lasting_combine _
  | and | or => exact .ok _

theorem BinaryOp.lasting_type (op : BinaryOp) (left right : Option ElementType) :
    FailsOnly Fault.Lasts (op.type left right) := by
  cases op with
  | quotient =>
    unfold type
    dsimp only
    split
    · exact .ok _
    · exact ElementType.lasting_combine _
  | floorDiv | remainder | power | shiftLeft | shiftRight => exact ElementType.lasting_combine _
  | compare => exact .ok _

theorem lasting_fieldType (aggregate : Expr) (type : ElementType) (field : String) :
    FailsOnly Fault.Lasts (fieldType aggregate type field) := by
  unfold fieldType
  split
  · split
    · exact .ok _
    · exact .error rfl
  · exact .error rfl

theorem lasting_castType (source target : ElementType) :
    FailsOnly Fault.Lasts (castType source target) := by
  unfold castType
  split
  · exact .ok _
  · exact .error rfl

theorem ReductionOp.lasting_resultTypes (op : ReductionOp) (args : List ElementType) :
    FailsOnly Fault.Lasts (op.resultTypes args) := by
  unfold resultTypes
  split
  · exact .ok _
  · split
    · exact .ok _
    · exact .error rfl
  · exact .error rfl

/-! ### Inference -/

namespace Inference

open Evaluation

variable {ctx : Context} {infer : Inference} {fuel : Nat}

/-- An attempt fails with faults only that last: it absorbs the others. -/
theorem lasting_attempt {α : Type} (x : Eval (Option α)) (t : Table) :
    FailsOnly Halt.Lasts (attempt x t) := by
  rw [attempt_eq]
  split
  · exact .ok _
  · exact .error trivial
  · split
    · exact .ok _
    case isFalse hlasts => exact .error (Bool.eq_false_iff.2 hlasts)

theorem lasting_settle (members : List Member) (onePass complete : Bool) (queue : List Member)
    (failed : NameSet) (changed : Bool) (p : Progress) :
    FailsOnly Halt.Lasts (settle ctx members onePass complete fuel queue failed changed p) := by
  induction fuel generalizing queue failed changed p with
  | zero => exact .error trivial
  | succ fuel ih =>
    cases queue with
    | nil =>
      unfold settle
      split
      · exact ih _ _ _ _
      · exact .ok p
    | cons m queue =>
      unfold settle
      refine (lasting_attempt _ _).bind fun ⟨found, s⟩ => ?_
      cases found with
      | some type =>
        dsimp only
        split
        · exact ih _ _ _ _
        · exact ih _ _ _ _
      | none =>
        dsimp only
        split
        · split
          · exact .error rfl
          · exact .ok p
        · exact ih _ _ _ _

theorem lasting_resolveCalls (p : Progress) (i : Instruction) :
    FailsOnly Halt.Lasts (resolveCalls ctx p i) := by
  unfold resolveCalls
  refine (lasting_attempt _ _).bind fun ⟨found, s⟩ => ?_
  cases found <;> exact .ok _

theorem lasting_inferExpanded (complete : Bool) (t : Table) :
    FailsOnly Halt.Lasts (inferExpanded ctx complete fuel t) := by
  unfold inferExpanded
  refine FailsOnly.bind (FailsOnly.foldlM (fun p names _ => ?_) _) fun p => ?_
  · exact lasting_settle _ _ _ _ _ _ _
  · exact FailsOnly.foldlM (fun p i _ => lasting_resolveCalls p i) p

theorem lasting_finishKernel (complete : Bool) (k : Kernel) (p : Progress) :
    FailsOnly Fault.Lasts (finishKernel complete k p) := by
  unfold finishKernel
  refine (Kernel.lasting_rename _ _).bind fun typed => ?_
  split
  · refine (typed.lasting_checkFunctionsResolved _).bind fun _ => ?_
    exact typed.lasting_checkVariablesTyped.bind fun _ => .ok _
  · exact .ok _

theorem lasting_inferWith (target : Target) (complete : Bool) (k : Kernel) (t : Table) :
    FailsOnly Halt.Lasts (inferWith target infer complete fuel k t) := by
  unfold inferWith
  split
  · exact .error rfl
  · refine k.lasting_expand.lift.bind fun expanded => ?_
    refine (lasting_inferExpanded _ _).bind fun p => ?_
    exact (lasting_finishKernel _ _ _).lift

end Inference

open Inference

variable (target : Target) (fuel : Nat)

theorem lasting_inferKernel (complete : Bool) (k : Kernel) (t : Table) :
    FailsOnly Halt.Lasts (inferKernel target fuel complete k t) := by
  cases fuel with
  | zero => exact .error trivial
  | succ fuel => exact lasting_inferWith target complete k t

/-! ### Callees -/

namespace Builtin

theorem lasting_commonType (f : Builtin) (first : ElementType) (rest : List ElementType) :
    FailsOnly Fault.Lasts (f.commonType first rest) := by
  unfold commonType
  refine (FailsOnly.foldlM (fun a b _ => a.lasting_promote b) first).bind fun common => ?_
  split
  · exact .error rfl
  · exact .ok _
  · exact .error rfl
  · exact .error rfl

theorem lasting_compute (f : Builtin) (s : Scalar) : FailsOnly Fault.Lasts (f.compute s) := by
  unfold compute
  split
  · exact .ok _
  · split
    · exact .error rfl
    · exact .ok _
  · split
    · exact .error rfl
    · exact .ok _
  · exact .ok _
  · exact .ok _

theorem lasting_specialize (f : Builtin) (args : List (Option ElementType)) :
    FailsOnly Fault.Lasts (f.specialize args) := by
  unfold specialize
  split
  · exact .error rfl
  · split
    · exact .ok _
    · exact .ok _
    · refine (f.lasting_commonType _ _).bind fun common => ?_
      exact (f.lasting_compute common).bind fun _ => .ok _

end Builtin

namespace Kernel

theorem lasting_receive (inputs : List String) (k : Kernel) (slot : Slot)
    (passed : Option ElementType) : FailsOnly Fault.Lasts (k.receive inputs slot passed) := by
  unfold receive
  split
  · exact .ok _
  · split
    · exact .ok _
    · split
      · exact .ok _
      · exact .error rfl
  · split
    · exact .ok _
    · exact .error rfl

theorem lasting_receiveAll (k : Kernel) (incoming : Incoming) :
    FailsOnly Fault.Lasts (k.receiveAll incoming) :=
  FailsOnly.foldlM (fun k passed _ => lasting_receive _ k passed.1 passed.2) k

theorem lasting_outputSlot (k : Kernel) (v : Variable) (i : Nat) :
    FailsOnly Fault.Lasts (k.outputSlot v i) := by
  unfold outputSlot
  split
  · exact .ok _
  · exact .error rfl

theorem lasting_signature (k : Kernel) : FailsOnly Fault.Lasts k.signature :=
  (FailsOnly.mapM fun output _ => k.lasting_outputSlot output.1 output.2).bind fun _ => .ok _

end Kernel

namespace Callable

variable {target : Target} (c : Callable) (incoming : Incoming)

theorem lasting_positional : FailsOnly Fault.Lasts (c.positional incoming) := by
  unfold positional
  split
  · exact .error rfl
  · exact .ok _

/-- Choosing a signature fails with faults only that last, if inference on callees does. -/
theorem lasting_specialize {infer : Inference} (hinfer : ∀ k t, FailsOnly Halt.Lasts (infer k t))
    (caller : Kernel) (t : Table) :
    FailsOnly Halt.Lasts (c.specialize target infer caller incoming t) := by
  unfold specialize
  split
  case h_1 f _ =>
    refine FailsOnly.bind (FailsOnly.lift ?_) fun _ => .ok _
    unfold specializeBuiltin
    refine (c.lasting_positional incoming).bind fun args => ?_
    refine (f.lasting_specialize args).bind fun found => ?_
    cases found <;> exact .ok _
  case h_2 matcher _ _ =>
    refine FailsOnly.bind (FailsOnly.lift ?_) fun _ => .ok _
    unfold specializeMatched
    refine (c.lasting_positional incoming).bind fun args => ?_
    split
    · exact .ok _
    · split
      · exact .ok _
      · exact .error rfl
  case h_3 callee _ =>
    unfold specializeKernel
    refine (callee.lasting_receiveAll incoming).lift.bind fun callee => ?_
    split
    · exact .ok _
    · refine (hinfer _ _).bind fun ⟨typed, t⟩ => ?_
      exact typed.lasting_signature.lift.bind fun _ => .ok _

end Callable

/-! ### Requests -/

theorem lasting_infer (complete : Bool) (k : Kernel) (t : Table) :
    FailsOnly Halt.Lasts (infer target fuel complete k t) := by
  unfold infer
  refine (lasting_inferKernel target fuel complete k _).bind fun ⟨typed, t⟩ => ?_
  exact (Table.lasting_commitEdit _ _).lift.bind fun _ => .ok _

theorem lasting_inferProgram (complete : Bool) (entry : String) (t : Table) :
    FailsOnly Halt.Lasts (inferProgram target fuel complete entry t) := by
  unfold inferProgram
  split
  · exact .error rfl
  · split
    · exact .error rfl
    · exact (lasting_infer target fuel complete _ t).bind fun _ => .ok _

theorem lasting_reductionTypes (k : Kernel) (r : Reduction) (unknownOk : Bool) (t : Table) :
    FailsOnly Halt.Lasts (reductionTypes target fuel k r unknownOk t) := by
  unfold reductionTypes
  refine (lasting_attempt _ _).bind fun ⟨args?, s⟩ => ?_
  refine (Table.lasting_commitEdit _ _).lift.bind fun t => ?_
  cases args? with
  | some args => exact (r.op.lasting_resultTypes args).lift.bind fun _ => .ok _
  | none =>
    dsimp only
    split
    · exact .ok _
    · exact .error rfl

/-- A caller is told of the fault: by a request, by inference inside of a transaction, or, as the
call site of a callee, by inference on that. -/
inductive Reported (f : Fault) : Prop where
  | infer {complete : Bool} {k : Kernel} {t : Table} :
    infer target fuel complete k t = .error (.fault f) → Reported f
  | inferKernel {complete : Bool} {k : Kernel} {t : Table} :
    inferKernel target fuel complete k t = .error (.fault f) → Reported f
  | inferProgram {complete : Bool} {entry : String} {t : Table} :
    inferProgram target fuel complete entry t = .error (.fault f) → Reported f
  | reductionTypes {k : Kernel} {r : Reduction} {unknownOk : Bool} {t : Table} :
    reductionTypes target fuel k r unknownOk t = .error (.fault f) → Reported f
  | specialize {caller : Kernel} {c : Callable} {incoming : Incoming} {t : Table} :
    c.specialize target (KernelTyping.inferKernel target fuel true) caller incoming t =
      .error (.fault f) → Reported f

/-- **Temporary faults do not escape.**  What a caller is told of is a matter of types or a broken
rule, never that something is not known yet, however deep kernels call each other. -/
theorem fault_lasting {target : Target} {fuel : Nat} {f : Fault} (h : Reported target fuel f) :
    f.kind = .typing ∨ f.kind = .contract := by
  refine Fault.lasts_iff.1 ?_
  cases h with
  | infer h => exact lasting_infer target fuel _ _ _ _ h
  | inferKernel h => exact lasting_inferKernel target fuel _ _ _ _ h
  | inferProgram h => exact lasting_inferProgram target fuel _ _ _ _ h
  | reductionTypes h => exact lasting_reductionTypes target fuel _ _ _ _ _ h
  | specialize h =>
    exact Callable.lasting_specialize _ _ (lasting_inferKernel target fuel true) _ _ _ h

/-- The output of this kernel is cast from itself, so that its type is never known. -/
def circularCallee : Kernel := { Kernel.empty "g" with
  args := [⟨"x", .unknown, .input⟩, ⟨"y", .unknown, .output⟩]
  instructions := [⟨"y", .assign (.var "y") (.cast .int32 (.var "y"))⟩] }

def circularCaller : Kernel := { Kernel.empty "k" with
  args := [⟨"a", .known .float32, .input⟩, ⟨"b", .unknown, .output⟩]
  instructions := [⟨"b", .assign (.var "b") (.call (.entry "g") [.var "a"] [])⟩] }

def circularTable : Table := Table.empty.insert "g" (.ofKernel circularCallee)

/-- The cast in the callee waits for its own type; the caller is told that there is none. -/
theorem fault_lasting_circularCaller :
    ∃ f, infer .cLike 9 true circularCaller circularTable = .error (.fault f) ∧
      f = .undetermined "y" ["y"] "g" ∧ (f.kind = .typing ∨ f.kind = .contract) := by
  have h : infer .cLike 9 true circularCaller circularTable =
      .error (.fault (.undetermined "y" ["y"] "g")) := by cbv
  exact ⟨_, h, rfl, fault_lasting (.infer h)⟩

end KernelTyping
