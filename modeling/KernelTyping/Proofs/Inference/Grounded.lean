import KernelTyping.Proofs.Evaluation.Grounded
import KernelTyping.Proofs.Inference.Rerun
import KernelTyping.Proofs.Renaming.Callees

/-!
# KernelTyping.Proofs.Inference.Grounded — inference adds grounded entries

Inference on a kernel whose callees are grounded rewrites its calls to grounded entries, and every
entry that it adds to the table is grounded (`inferKernel_grounding`).  A kernel itself may call
names without an entry: where no entry that it can reach refers to such a name, a run adds only
grounded entries (`Steps.growsGrounded`), and what an evaluation finds on the way it finds again from
the final table (`Steps.exec_final`).
-/

namespace KernelTyping

open Evaluation

namespace Evaluation

variable {ctx : Context} {R : String → Prop}

variable (ctx) in
theorem relatedAt_repeatsAt (hgrows : GrowsTable ctx.infer) (hreruns : ∀ R, Reruns R ctx.infer)
    (hinfer : Grounding ctx.infer) {i : Instruction}
    (hi : ∀ value, i.value? = some value → CallsOnly R value) :
    RelatedAt (fun _ x y => x = y ∧ RepeatsAt R x) ctx ctx i where
  eval hvalue := ⟨rfl, repeatsAt_eval hgrows hreruns hinfer (hi _ hvalue)⟩
  evalTuple hvalue := ⟨rfl, repeatsAt_evalTuple hgrows hreruns hinfer (hi _ hvalue)⟩

end Evaluation

namespace Inference

variable {ctx : Context} {R : String → Prop} {members : List Member} {p q : Progress}

/-! ### Runs -/

section Attempts

variable (hgrows : GrowsTable ctx.infer) (hreruns : ∀ R, Reruns R ctx.infer)
  (hinfer : Grounding ctx.infer) (honly : InstructionsOnly R ctx.kernel)

include hgrows hreruns hinfer honly

variable (ctx) in
theorem repeatsAt_writtenType {m : Member} (hm : ∀ i ∈ m.writers, i ∈ ctx.kernel.instructions)
    (env : Env) : RepeatsAt R (writtenType { ctx with env } m) :=
  (compatible_repeatsAt.writtenType fun i hi =>
    relatedAt_repeatsAt { ctx with env } hgrows hreruns hinfer (honly i (hm i hi))).2

theorem repeatsAt_visit {i : Instruction} (hi : i ∈ ctx.kernel.instructions) (env : Env) :
    RepeatsAt R (visit { ctx with env } i) :=
  (compatible_repeatsAt.visit
    (relatedAt_repeatsAt { ctx with env } hgrows hreruns hinfer (honly i hi))).2

end Attempts

/-- A sound progress in which those of the names that have an entry are grounded, and so is every
name that is recorded. -/
structure Progress.Grounded (R : String → Prop) (p : Progress) : Prop where
  sound : p.Sound
  table : Table.GroundedAt R p.table
  renames {call : Expr} {name : String} :
    p.renames.get? call = some name → p.table.Grounded name

/-- What an attempt finds is recorded. -/
theorem Progress.Grounded.record {α : Type} {x : Eval (Option α)} {a : α} {s : State}
    (hp : p.Grounded R) (hx : RepeatsAt R x) (h : attempt x p.table = .ok (some a, s)) :
    p.table.GrowsGrounded s.table ∧ (p.record s).Grounded R := by
  obtain ⟨hgrows, hs⟩ := hx.grounds (attempt_eq_some.1 h) (.start hp.sound.editing hp.table)
  refine ⟨hgrows, hp.sound.record hs.sound hgrows.grows, hs.table, fun {call name} hname => ?_⟩
  rw [Progress.record, Renames.get?_merge hs.sound.proper, Option.or_eq_some_iff] at hname
  rcases hname with hname | ⟨-, hname⟩
  · exact hs.renames hname
  · exact (hp.renames hname).grows hgrows.grows

/-- A run of a kernel that calls only these names adds only grounded entries. -/
theorem Steps.grounded (hgrows : GrowsTable ctx.infer) (hreruns : ∀ R, Reruns R ctx.infer)
    (hinfer : Grounding ctx.infer) (honly : InstructionsOnly R ctx.kernel)
    (hmembers : WritersIn ctx.kernel members) (h : Steps ctx members p q) (hp : p.Grounded R) :
    p.table.GrowsGrounded q.table ∧ q.Grounded R := by
  induction h with
  | refl => exact ⟨.refl _, hp⟩
  | @assign q m type s _ hm hattempt ih =>
    obtain ⟨hpq, hq⟩ := ih
    obtain ⟨hqs, hs⟩ := hq.record
      (repeatsAt_writtenType ctx hgrows hreruns hinfer honly (hmembers m hm) q.env) hattempt
    exact ⟨hpq.trans hqs, hs.sound.withEnv _, hs.table, hs.renames⟩
  | @resolve q i s _ hi hattempt ih =>
    obtain ⟨hpq, hq⟩ := ih
    obtain ⟨hqs, hs⟩ := hq.record
      (repeatsAt_visit hgrows hreruns hinfer honly hi q.env) hattempt
    exact ⟨hpq.trans hqs, hs⟩

theorem inferWith_grounding {target : Target} {infer : Inference} (hgrows : GrowsTable infer)
    (hreruns : ∀ R, Reruns R infer) (hinfer : Grounding infer) (complete : Bool) (fuel : Nat) :
    Grounding (inferWith target infer complete fuel) := by
  intro k t k' u hk h
  obtain ⟨ht, e, p, he, hp, hfinish⟩ := inferWith_eq_ok.1 h
  obtain ⟨hrename, rfl, -⟩ := finishKernel_eq_ok.1 hfinish
  have hstart : Progress.Grounded t.Grounded ⟨startEnv e, t, .empty⟩ :=
    ⟨.start ht _, t.linked_grounded.groundedAt, fun hname => nomatch hname⟩
  obtain ⟨htp, hgrounded⟩ := (steps_of_inferExpanded hp).grounded hgrows hreruns hinfer
    (instructionsOnly_of_expand hk he) (writersIn_ofName e _) hstart
  refine ⟨htp, fun name hname => ?_⟩
  rcases Kernel.mem_calledEntries_of_rename hrename hname with hcalled | ⟨call, hcall⟩
  · rw [Kernel.calledEntries_withTypes] at hcalled
    exact (hk name hcalled).grows htp.grows
  · exact hgrounded.renames hcall

end Inference

open Inference

/-- Inference on a kernel that calls grounded entries gives one that does, and adds only grounded
entries. -/
theorem inferKernel_grounding (target : Target) (fuel : Nat) (complete : Bool) :
    Grounding (inferKernel target fuel complete) := by
  induction fuel generalizing complete with
  | zero => exact fun _ _ _ _ _ h => nomatch h
  | succ fuel ih =>
    exact inferWith_grounding (inferKernel_grows target fuel true)
      (fun _ => inferKernel_reruns target fuel true) (ih true) _ _

namespace Inference

section Kernels

variable {target : Target} {fuel : Nat} {k e : Kernel} {t : Table} (he : k.expand = .ok e)

include he

/-- Evaluations at the instructions of a kernel call what can be reached from it. -/
theorem relatedAt_repeatsAt_reaches (t : Table) (env : Env) {i : Instruction}
    (hi : i ∈ e.instructions) :
    RelatedAt (fun _ x y => x = y ∧ RepeatsAt (t.Reaches k) x)
      { inferContext target fuel e with env } { inferContext target fuel e with env } i :=
  relatedAt_repeatsAt { inferContext target fuel e with env } (inferKernel_grows target fuel true)
    (fun _ => inferKernel_reruns target fuel true) (inferKernel_grounding target fuel true)
    (instructionsOnly_of_expand (k.callsOnly_reaches t) he i hi)

theorem repeatsAt_writtenType_reaches (t : Table) (env : Env) {m : Member}
    (hm : ∀ i ∈ m.writers, i ∈ e.instructions) :
    RepeatsAt (t.Reaches k) (writtenType { inferContext target fuel e with env } m) :=
  (compatible_repeatsAt.writtenType fun i hi =>
    relatedAt_repeatsAt_reaches he t env (hm i hi)).2

/-- Where no entry that the kernel can reach refers to a name without an entry, a run adds only
grounded entries. -/
theorem Steps.growsGrounded {names : List String} {env : Env} {q : Progress}
    (ht : t.isEditing = true) (hintact : t.Intact (t.Reaches k))
    (h : Steps (inferContext target fuel e) (names.map (.ofName e)) ⟨env, t, .empty⟩ q) :
    t.GrowsGrounded q.table := by
  have hstart : Progress.Grounded (t.Reaches k) ⟨env, t, .empty⟩ :=
    ⟨.start ht _, hintact.groundedAt_reaches, fun hname => nomatch hname⟩
  exact (h.grounded (inferKernel_grows target fuel true)
    (fun _ => inferKernel_reruns target fuel true) (inferKernel_grounding target fuel true)
    (instructionsOnly_of_expand (k.callsOnly_reaches t) he) (writersIn_ofName e names) hstart).1

/-- What is found on the way of such a run is found from the table that it comes to. -/
theorem Steps.exec_final {names : List String} {env : Env} {q : Progress}
    (ht : t.isEditing = true) (hintact : t.Intact (t.Reaches k))
    (h : Steps (inferContext target fuel e) (names.map (.ofName e)) ⟨env, t, .empty⟩ q) {α : Type}
    {x : Eval α} (hx : RepeatsAt (t.Reaches k) x) {T : Table} {a : α} {s : State}
    (hT : t.Grows T) (hexec : exec x (.start T) = (.ok a, s)) (hs : s.table.Grows q.table) :
    exec x (.start q.table) = (.ok a, { s with table := q.table }) :=
  hx.exec_of_between ht hintact.groundedAt_reaches (h.growsGrounded he ht hintact) hT hexec hs

end Kernels

end Inference

end KernelTyping
