import KernelTyping.Proofs.Evaluation.Trace
import KernelTyping.Proofs.Inference.Soundness

/-!
# KernelTyping.Proofs.Inference.Overloads — what a renamed call refers to

After all types are found every instruction is visited once more.  A call that has an answer at one
of these visits refers in the end to the callable of an answer for the final types.  A name that
none of them records is one of an earlier pass, for types that were given up since
(`renamed_calls_resolve`): it stays although the call has no answer any more
(`renamed_call_without_answer`).
-/

namespace KernelTyping

open Evaluation

namespace Inference

variable {ctx : Context}

/-! ### Visits of an instruction -/

/-- The value that is evaluated at an instruction, and whether it has several results. -/
def evaluated? (i : Instruction) : Option (Bool × Expr) :=
  match i.action with
  | .assign _ value => some (false, value)
  | .assignAll targets value => some (1 < targets.length, value)
  | .barrier | .noop | .foreign _ _ _ => none

/-- The call is evaluated where the instruction is visited. -/
def VisitsAt (i : Instruction) (call : Expr) : Prop :=
  ∃ tuple value, evaluated? i = some (tuple, value) ∧ VisitsValue tuple value call

theorem value?_of_evaluated? {i : Instruction} {tuple : Bool} {value : Expr}
    (h : evaluated? i = some (tuple, value)) : i.value? = some value := by
  obtain ⟨id, action⟩ := i
  cases action <;> simp_all [evaluated?, Instruction.value?]

theorem visitsAt_iff {i : Instruction} {tuple : Bool} {value call : Expr}
    (h : evaluated? i = some (tuple, value)) : VisitsAt i call ↔ VisitsValue tuple value call := by
  simp only [VisitsAt, h, Option.some.injEq, Prod.mk.injEq]
  constructor
  · rintro ⟨_, _, ⟨rfl, rfl⟩, hvisits⟩
    exact hvisits
  · exact fun hvisits => ⟨_, _, ⟨rfl, rfl⟩, hvisits⟩

theorem VisitsAt.callsOnly {R : String → Prop} {k : Kernel} {i : Instruction} {call : Expr}
    (h : VisitsAt i call) (hk : InstructionsOnly R k) (hi : i ∈ k.instructions) :
    CallsOnly R call := by
  obtain ⟨tuple, value, hvalue, hvisits⟩ := h
  exact fun name hname => hk i hi value (value?_of_evaluated? hvalue) name (hvisits.mentions hname)

theorem mem_filter_of_visitsAt {is : List Instruction} {i : Instruction} {call : Expr}
    (hi : i ∈ is) (h : VisitsAt i call) : i ∈ is.filter (!·.isDataOblivious) := by
  obtain ⟨_, _, hvalue, -⟩ := h
  exact List.mem_filter.2 ⟨hi, by simp [Instruction.isDataOblivious, value?_of_evaluated? hvalue]⟩

/-- To visit an instruction is to evaluate its value. -/
theorem visit_eq (ctx : Context) (i : Instruction) :
    visit ctx i =
      match evaluated? i with
      | some (true, value) => evalTuple ctx value >>= fun _ => pure (some ())
      | some (false, value) => eval ctx value >>= fun _ => pure (some ())
      | none => pure (some ()) := by
  unfold visit evaluated?
  cases i.action with
  | assignAll targets value => by_cases h : 1 < targets.length <;> simp [h]
  | _ => rfl

theorem traced_visit (hgrows : GrowsTable ctx.infer) {i : Instruction} {s s' : State}
    {found : Option Unit} (hs : s.Sound) (h : exec (visit ctx i) s = (.ok found, s')) :
    Traced ctx (VisitsAt i) s s' := by
  rw [visit_eq] at h
  cases hvalue : evaluated? i with
  | none =>
    rw [hvalue] at h
    obtain ⟨-, rfl⟩ := Prod.mk.inj h
    exact (Traced.of_eq hs rfl rfl).mono fun call ⟨_, _, heq, _⟩ => by simp [hvalue] at heq
  | some evaluated =>
    obtain ⟨tuple, value⟩ := evaluated
    rw [hvalue] at h
    cases tuple with
    | true =>
      obtain ⟨types, m, htypes, h⟩ := exec_bind_eq_ok.1 h
      obtain ⟨-, rfl⟩ := Prod.mk.inj h
      exact (traced_evalTuple hgrows value hs htypes).mono fun call => (visitsAt_iff hvalue).1
    | false =>
      obtain ⟨type, m, htype, h⟩ := exec_bind_eq_ok.1 h
      obtain ⟨-, rfl⟩ := Prod.mk.inj h
      refine (traced_eval hgrows value hs htype).mono fun call hcall => ?_
      cases (visitsAt_iff hvalue).1 hcall with
      | single h => exact h

/-! ### The last visits -/

/-- An answer from a table on the way is the answer from the final table, if only grounded entries
were added. -/
theorem AnswerBetween.final {R : String → Prop} {t u : Table} {call : Expr}
    {found : Option (Callable × List ElementType)} (h : AnswerBetween ctx t u call found)
    (hrepeats : RepeatsAt R (answerOf ctx call)) (ht : t.isEditing = true)
    (hR : Table.GroundedAt R t) (hgrown : t.GrowsGrounded u) :
    ∃ s, attempt (answerOf ctx call) u = .ok (found, s) ∧ s.table = u := by
  obtain ⟨T, m, hT, hexec, hm⟩ := h
  have hfinal := hrepeats.exec_of_between ht hR hgrown hT hexec hm
  exact ⟨_, by rw [attempt_eq, hfinal], rfl⟩

/-- The call is recorded with this name at a last visit of an instruction. -/
def RecordedLast (ctx : Context) (is : List Instruction) (t u : Table) (call : Expr)
    (name : String) : Prop :=
  ∃ i ∈ is, ∃ T s, t.Grows T ∧ attempt (visit ctx i) T = .ok (some (), s) ∧ s.table.Grows u ∧
    s.renames.get? call = some name

/-- No last visit of an instruction records the call. -/
def NotRecordedLast (ctx : Context) (is : List Instruction) (t u : Table) (call : Expr) : Prop :=
  ∀ i ∈ is, ∃ T found s, t.Grows T ∧ T.Grows u ∧ attempt (visit ctx i) T = .ok (found, s) ∧
    (found = some () → s.table.Grows u ∧ s.renames.get? call = none)

/-- After the last visits, a call has the name that the last one to record it gave it, or what it
had before. -/
theorem recorded_of_resolveCalls (hgrows : GrowsTable ctx.infer) {is : List Instruction}
    (his : is ⊆ ctx.kernel.instructions) {p q : Progress} (hp : p.Sound)
    (h : is.foldlM (resolveCalls ctx) p = .ok q) (call : Expr) :
    (∃ name, q.renames.get? call = some name ∧
      RecordedLast { ctx with env := p.env } is p.table q.table call name) ∨
      q.renames.get? call = p.renames.get? call ∧
        NotRecordedLast { ctx with env := p.env } is p.table q.table call := by
  induction is generalizing p with
  | nil =>
    obtain rfl := Except.ok.inj h
    exact .inr ⟨rfl, nofun⟩
  | cons i is ih =>
    obtain ⟨hi, his⟩ := List.cons_subset.1 his
    rw [List.foldlM_cons] at h
    obtain ⟨r, hr, h⟩ := bind_eq_ok.1 h
    have hsteps : Steps ctx [] p r := steps_of_resolveCalls hi hr
    obtain ⟨hpr, hrsound⟩ := hsteps.grows hgrows hp
    have hrest : Steps ctx [] r q := steps_of_foldlM_resolveCalls his h
    have hrq := (hrest.grows hgrows hrsound).1
    have hrest := ih his hrsound h
    rw [hsteps.env_eq_of_nil] at hrest
    rcases hrest with ⟨name, hname, j, hj, T, s, hT, hrest⟩ | ⟨hqr, hnone⟩
    · exact .inl ⟨name, hname, j, by simp [hj], T, s, hpr.trans hT, hrest⟩
    · replace hnone : NotRecordedLast { ctx with env := p.env } is p.table q.table call := by
        intro j hj
        obtain ⟨T, found, s, hT, hrest⟩ := hnone j hj
        exact ⟨T, found, s, hpr.trans hT, hrest⟩
      obtain ⟨⟨found, s⟩, hattempt, hr⟩ := bind_eq_ok.1 hr
      cases found with
      | none =>
        obtain rfl := Except.ok.inj hr
        refine .inr ⟨hqr, List.forall_mem_cons.2 ⟨?_, hnone⟩⟩
        exact ⟨p.table, none, s, .refl _, hrq, hattempt, nofun⟩
      | some _ =>
        obtain rfl := Except.ok.inj hr
        have hs := (hp.attempt (evolution_visit { ctx with env := p.env }
          (evolution_grows hgrows) i) hattempt).2
        rw [Progress.record, Renames.get?_merge hs.proper] at hqr
        cases hcall : s.renames.get? call with
        | some name =>
          rw [hcall, Option.some_or] at hqr
          exact .inl ⟨name, hqr, i, by simp, p.table, s, .refl _, hattempt, hrq, hcall⟩
        | none =>
          rw [hcall, Option.none_or] at hqr
          refine .inr ⟨hqr, List.forall_mem_cons.2 ⟨?_, hnone⟩⟩
          exact ⟨p.table, some (), s, .refl _, hpr.trans hrq, hattempt, fun _ => ⟨hrq, hcall⟩⟩

section Last

variable {is : List Instruction} {t u : Table} {call : Expr} {name : String}

/-- A call that is recorded at a last visit has the callable of that name for an answer there. -/
theorem RecordedLast.answer (h : RecordedLast ctx is t u call name)
    (hgrows : GrowsTable ctx.infer) (ht : t.isEditing = true) :
    ∃ c results, AnswerBetween ctx t u call (some (c, results)) ∧ u.get? name = some c := by
  obtain ⟨i, -, T, s, hT, hattempt, hs, hname⟩ := h
  have htraced := traced_visit hgrows (.start (hT.isEditing_eq.trans ht))
    (attempt_eq_some.1 hattempt)
  rcases htraced.named hname with h | ⟨c, results, hanswer, hc⟩
  · cases h
  · exact ⟨c, results, hanswer.grows hT hs, hs.get? hc⟩

/-- A call that is not recorded at a last visit has no answer there, or the visit ends early. -/
theorem NotRecordedLast.answer (h : NotRecordedLast ctx is t u call)
    (hgrows : GrowsTable ctx.infer) (ht : t.isEditing = true) (hcall : call.isCall = true)
    {i : Instruction} (hi : i ∈ is) (hvisits : VisitsAt i call) :
    (∃ T s, t.Grows T ∧ T.Grows u ∧ attempt (visit ctx i) T = .ok (none, s)) ∨
      AnswerBetween ctx t u call none := by
  obtain ⟨T, found, s, hT, hTu, hattempt, hs⟩ := h i hi
  cases found with
  | none => exact .inl ⟨T, s, hT, hTu, hattempt⟩
  | some _ =>
    obtain ⟨hs, hnone⟩ := hs rfl
    have htraced := traced_visit hgrows (.start (hT.isEditing_eq.trans ht))
      (attempt_eq_some.1 hattempt)
    obtain ⟨found, hanswer, hcontains⟩ := htraced.answered hvisits hcall
    cases found with
    | none => exact .inr (hanswer.grows hT hs)
    | some _ =>
      have := hcontains rfl
      rw [Renames.contains, hnone] at this
      cases this

variable (ctx) in
/-- The last visits of a run of inference record a call, or none of them does. -/
theorem recordedLast_or_not (hgrows : GrowsTable ctx.infer) {complete : Bool} {fuel : Nat}
    {q : Progress} (ht : t.isEditing = true) (h : inferExpanded ctx complete fuel t = .ok q)
    (call : Expr) :
    let is := ctx.kernel.instructions.filter (!·.isDataOblivious)
    (∃ name, q.renames.get? call = some name ∧
      RecordedLast { ctx with env := q.env } is t q.table call name) ∨
      NotRecordedLast { ctx with env := q.env } is t q.table call := by
  obtain ⟨p, hp, hq⟩ := inferExpanded_eq_ok.1 h
  have his : ctx.kernel.instructions.filter (!·.isDataOblivious) ⊆ ctx.kernel.instructions :=
    List.filter_subset_self _
  obtain ⟨htp, hpsound⟩ := (steps_of_components hp).grows hgrows (.start ht _)
  have hsteps : Steps ctx [] p q := steps_of_foldlM_resolveCalls his hq
  rw [hsteps.env_eq_of_nil]
  rcases recorded_of_resolveCalls hgrows his hpsound hq call with
    ⟨name, hname, i, hi, T, s, hT, hrest⟩ | ⟨-, hnone⟩
  · exact .inl ⟨name, hname, i, hi, T, s, htp.trans hT, hrest⟩
  · refine .inr fun i hi => ?_
    obtain ⟨T, found, s, hT, hrest⟩ := hnone i hi
    exact ⟨T, found, s, htp.trans hT, hrest⟩

variable (ctx) in
/-- The last visits of a run of inference decide which name a call has. -/
theorem recorded_of_inferExpanded (hgrows : GrowsTable ctx.infer) {complete : Bool} {fuel : Nat}
    {q : Progress} (ht : t.isEditing = true) (h : inferExpanded ctx complete fuel t = .ok q)
    (hname : q.renames.get? call = some name) :
    let is := ctx.kernel.instructions.filter (!·.isDataOblivious)
    RecordedLast { ctx with env := q.env } is t q.table call name ∨
      NotRecordedLast { ctx with env := q.env } is t q.table call := by
  rcases recordedLast_or_not ctx hgrows ht h call with ⟨other, hother, hrecorded⟩ | hnone
  · obtain rfl := Option.some.inj (hname.symm.trans hother)
    exact .inl hrecorded
  · exact .inr hnone

/-- Where all that can be reached is in the table from the start, a call that no last visit records
has no callable for the final types and table, if the visit of an instruction with it comes to an
end. -/
theorem NotRecordedLast.attempt_eq_none {R : String → Prop} (h : NotRecordedLast ctx is t u call)
    (hgrows : GrowsTable ctx.infer) (hsame : SameTypes R ctx.infer)
    (honly : InstructionsOnly R ctx.kernel) (ht : t.isEditing = true)
    (hlinked : Table.Linked R t) (hgrown : t.GrowsGrounded u)
    (hrepeats : RepeatsAt R (answerOf ctx call)) (his : is ⊆ ctx.kernel.instructions)
    (hcall : call.isCall = true) {i : Instruction} (hi : i ∈ is) (hvisits : VisitsAt i call)
    (hends : ∃ s, attempt (visit ctx i) u = .ok (some (), s)) :
    ∃ s, attempt (answerOf ctx call) u = .ok (none, s) := by
  rcases h.answer hgrows ht hcall hi hvisits with ⟨T, r, hT, hTu, hearly⟩ | hanswer
  · -- the visit would end early from the final table as well
    have hvisit := sameResults_visit hgrows hsame honly (his hi) ctx.env
    obtain ⟨r', hearly⟩ := exists_attempt_none hvisit (hT.isEditing_eq.trans ht)
      (hlinked.grows hT) hearly hTu
    obtain ⟨r, hends⟩ := hends
    rw [hends] at hearly
    cases hearly
  · obtain ⟨s, hfinal, -⟩ := AnswerBetween.final hanswer hrepeats ht hlinked.groundedAt hgrown
    exact ⟨s, hfinal⟩

/-- Where all that can be reached is in the table from the start, a call whose last visit came to
an end refers to the callable that it has for the final types and table, if it has one. -/
theorem answer_iff_of_last {R : String → Prop} (hgrows : GrowsTable ctx.infer)
    (hsame : SameTypes R ctx.infer) (honly : InstructionsOnly R ctx.kernel)
    (ht : t.isEditing = true) (hlinked : Table.Linked R t) (hgrown : t.GrowsGrounded u)
    (hrepeats : RepeatsAt R (answerOf ctx call)) (his : is ⊆ ctx.kernel.instructions)
    (hlast : RecordedLast ctx is t u call name ∨ NotRecordedLast ctx is t u call)
    (hcall : call.isCall = true) {i : Instruction} (hi : i ∈ is) (hvisits : VisitsAt i call)
    (hends : ∃ s, attempt (visit ctx i) u = .ok (some (), s)) :
    (∃ found s, attempt (answerOf ctx call) u = .ok (some found, s)) ↔
      ∃ c results s, attempt (answerOf ctx call) u = .ok (some (c, results), s) ∧ s.table = u ∧
        u.get? name = some c := by
  refine ⟨fun ⟨found, s, hfound⟩ => ?_, fun ⟨c, results, s, hfound, _⟩ => ⟨_, s, hfound⟩⟩
  rcases hlast with hrecorded | hnone
  · obtain ⟨c, results, hanswer, hc⟩ := hrecorded.answer hgrows ht
    obtain ⟨s, hfinal, hs⟩ := AnswerBetween.final hanswer hrepeats ht hlinked.groundedAt hgrown
    exact ⟨c, results, s, hfinal, hs, hc⟩
  · obtain ⟨r, hfinal⟩ := hnone.attempt_eq_none hgrows hsame honly ht hlinked hgrown hrepeats his
      hcall hi hvisits hends
    rw [hfound] at hfinal
    cases hfinal

end Last

/-! ### The calls of a run -/

section Run

variable {target : Target} {fuel : Nat} {complete : Bool} {k e : Kernel} {t : Table} {p : Progress}
  {call : Expr}

/-- A recorded call calls what can be reached from the kernel. -/
theorem callsOnly_of_recorded (he : k.expand = .ok e) (ht : t.isEditing = true)
    (hp : inferExpanded (inferContext target fuel e) complete fuel t = .ok p)
    (hcall : p.renames.contains call = true) : CallsOnly (t.Reaches k) call := by
  refine (steps_of_inferExpanded hp).recordsOnly (N := CallsOnly (t.Reaches k))
    (inferKernel_grows target fuel true) (writersIn_ofName _ _) ?_ (.start ht _)
    (fun _ h => nomatch h) call hcall
  intro i hi value tuple callee args keywords hvalue hvisits name hname
  have honly := instructionsOnly_of_expand (k.callsOnly_reaches t) he
  exact honly i hi value hvalue name (hvisits.mentions hname)

theorem repeatsAt_answerOf_reaches (env : Env)
    (hcall : CallsOnly (t.Reaches k) call) :
    RepeatsAt (t.Reaches k) (answerOf { inferContext target fuel e with env } call) :=
  repeatsAt_answerOf (inferKernel_grows target fuel true)
    (fun _ => inferKernel_reruns target fuel true) (inferKernel_grounding target fuel true) hcall

end Run

end Inference

open Inference

/-- **Overloads of renamed calls.**  Once inference on a kernel has succeeded, the typed kernel
expands to the expanded kernel with its recorded calls renamed.  A renamed call refers to a callable
that it has for the types of the typed kernel, from a table that inference passed through; or else,
at every instruction that visits it, the last visit ended early or found no callable for it.  If no
entry that the kernel can reach refers to a name without an entry, the call has that callable from
the final table as well.  If all entries that the kernel can reach are in the table from the start,
and the visit of an instruction with the call comes to an end, then the call refers to the callable
that it has for the final types and table exactly if it has one. -/
theorem renamed_calls_resolve {target : Target} {fuel : Nat} {k k' e : Kernel} {t t' : Table}
    (h : inferKernel target (fuel + 1) true k t = .ok (k', t')) (he : k.expand = .ok e) :
    let ctx : Context := ⟨target, e, k'.types, inferKernel target fuel true⟩
    ∃ m : Renames,
      k'.expand.map (·.instructions) =
        .ok (e.instructions.map (·.mapExpressions (Expr.renameCalls m))) ∧
      ∀ call name, m.get? call = some name →
        ((∃ c results, AnswerBetween ctx t t' call (some (c, results)) ∧ t'.get? name = some c ∧
            (t.Intact (t.Reaches k) →
              ∃ s, attempt (answerOf ctx call) t' = .ok (some (c, results), s) ∧ s.table = t')) ∨
          ∀ i ∈ e.instructions, VisitsAt i call →
            (∃ T s, t.Grows T ∧ T.Grows t' ∧ attempt (visit ctx i) T = .ok (none, s)) ∨
              AnswerBetween ctx t t' call none) ∧
        (t.LinkedFrom k → ∀ i ∈ e.instructions, VisitsAt i call →
          (∃ s, attempt (visit ctx i) t' = .ok (some (), s)) →
          ((∃ found s, attempt (answerOf ctx call) t' = .ok (some found, s)) ↔
            ∃ c results s, attempt (answerOf ctx call) t' = .ok (some (c, results), s) ∧
              s.table = t' ∧ t'.get? name = some c)) := by
  intro ctx
  obtain ⟨p, hp, ht, rfl, hcompletes, hexpand⟩ := exists_progress_of_inferKernel h he
  have hgrows := inferKernel_grows target fuel true
  have hvisit : visit ctx = visit ⟨target, e, p.env, _⟩ := funext fun i =>
    compatible_eq.visit (relatedAt_of_completes (inferContext target fuel e) hcompletes i)
  refine ⟨p.renames, hexpand, fun call name hname => ?_⟩
  have hrecorded : p.renames.contains call = true := by simp [Renames.contains, hname]
  have hnormal := normal_of_inferExpanded (inferContext target fuel e) hgrows he ht hp
  have hcall : call.isCall = true := (hnormal call hrecorded).1
  have hlast := recorded_of_inferExpanded (inferContext target fuel e) hgrows ht hp hname
  simp only [RecordedLast, NotRecordedLast, ← hvisit] at hlast
  have hrepeats : RepeatsAt (t.Reaches k) (answerOf ctx call) :=
    repeatsAt_answerOf_reaches k'.types (callsOnly_of_recorded he ht hp hrecorded)
  have hgrown (hintact : t.Intact (t.Reaches k)) : t.GrowsGrounded p.table :=
    (steps_of_inferExpanded hp).growsGrounded he ht hintact
  refine ⟨?_, fun hlinked i hi hvisits hends => ?_⟩
  · refine hlast.imp (fun hlast => ?_) fun hnone i hi hvisits =>
      NotRecordedLast.answer hnone hgrows ht hcall (mem_filter_of_visitsAt hi hvisits) hvisits
    obtain ⟨c, results, hanswer, hc⟩ := RecordedLast.answer hlast hgrows ht
    exact ⟨c, results, hanswer, hc, fun hintact =>
      AnswerBetween.final hanswer hrepeats ht hintact.groundedAt_reaches (hgrown hintact)⟩
  · exact answer_iff_of_last hgrows (inferKernel_sameTypes target fuel true)
      (instructionsOnly_of_expand (k.callsOnly_reaches t) he) ht hlinked.linked
      (hgrown hlinked.intact) hrepeats (List.filter_subset_self _) hlast hcall
      (mem_filter_of_visitsAt hi hvisits) hvisits hends

/-- The instructions of a typed kernel in expanded form, and whether the visit of an instruction
comes to an end and a call has a callable, for the final types and table. -/
def finalAnswer (k : Kernel) (t : Table) (fuel : Nat) (i : Instruction) (call : Expr) :
    Option (List Instruction × Bool × Bool) :=
  match inferKernel .cLike (fuel + 1) true k t with
  | .ok (k', t') =>
    let ctx : Context := ⟨.cLike, k, k'.types, inferKernel .cLike fuel true⟩
    match k'.expand, attempt (visit ctx i) t', attempt (answerOf ctx call) t' with
    | .ok e, .ok (visited, _), .ok (found, _) =>
      some (e.instructions, visited.isSome, found.isSome)
    | _, _, _ => none
  | .error _ => none

theorem exists_of_finalAnswer {k : Kernel} {t : Table} {fuel : Nat} {i : Instruction} {call : Expr}
    {is : List Instruction} {ends answered : Bool}
    (h : finalAnswer k t fuel i call = some (is, ends, answered)) :
    ∃ k' t' visited found s s', inferKernel .cLike (fuel + 1) true k t = .ok (k', t') ∧
      k'.expand.map (·.instructions) = .ok is ∧
      attempt (visit ⟨.cLike, k, k'.types, inferKernel .cLike fuel true⟩ i) t' =
        .ok (visited, s) ∧ visited.isSome = ends ∧
      attempt (answerOf ⟨.cLike, k, k'.types, inferKernel .cLike fuel true⟩ call) t' =
        .ok (found, s') ∧ found.isSome = answered := by
  unfold finalAnswer at h
  split at h
  case h_1 k' t' hinfer =>
    dsimp only at h
    split at h
    case h_1 e visited s found s' hexpand hvisit hanswer =>
      obtain ⟨rfl, hflags⟩ := Prod.mk.inj (Option.some.inj h)
      obtain ⟨rfl, rfl⟩ := Prod.mk.inj hflags
      exact ⟨k', t', visited, found, s, s', hinfer, by rw [hexpand]; rfl, hvisit, rfl, hanswer, rfl⟩
    case h_2 => cases h
  case h_2 => cases h

/-- A call that refers to another entry than before has been renamed to it. -/
theorem get?_of_callee?_renameCalls {m : Renames} {call : Expr} {name : String}
    (hcall : call.isCall = true) (hne : call.callee? ≠ some (.entry name))
    (h : (call.renameCalls m).callee? = some (.entry name)) : m.get? call = some name := by
  rw [Expr.callee?_renameCalls hcall] at h
  cases hname : m.get? call with
  | none =>
    rw [hname] at h
    exact absurd h hne
  | some other =>
    rw [hname] at h
    rw [Callee.entry.inj (Option.some.inj h)]

/-- The instruction of `cyclicKernel` with the call. -/
def absInstruction : Instruction := ⟨"y", .assign (.var "y") (.nary .sum [absCall, .var "z"])⟩

theorem visitsAt_absCall : VisitsAt absInstruction absCall :=
  ⟨false, _, rfl, .single (.operand (List.mem_cons_self ..) (.self absCall))⟩

theorem finalAnswer_absCall : finalAnswer cyclicKernel absTable 7 absInstruction absCall =
    some (typedCyclic.instructions, true, true) := by
  unfold finalAnswer
  rw [inferKernel_cyclicKernel]
  cbv

theorem renamed_calls_resolve_cyclicKernel :
    ∃ k' t' c results s, inferKernel .cLike 8 true cyclicKernel absTable = .ok (k', t') ∧
      attempt (answerOf ⟨.cLike, cyclicKernel, k'.types, inferKernel .cLike 7 true⟩ absCall) t' =
        .ok (some (c, results), s) ∧
      t'.get? "abs_0" = some c := by
  obtain ⟨k', t', visited, found, s, s', h, hexpand, hvisit, hends, hanswer, hfound⟩ :=
    exists_of_finalAnswer finalAnswer_absCall
  obtain ⟨_, rfl⟩ := Option.isSome_iff_exists.1 hends
  obtain ⟨_, rfl⟩ := Option.isSome_iff_exists.1 hfound
  obtain ⟨m, hrenamed, hcalls⟩ := renamed_calls_resolve (e := cyclicKernel) h rfl
  have hname : m.get? absCall = some "abs_0" := by
    have hinstruction := (List.cons.inj (Except.ok.inj (hrenamed.symm.trans hexpand))).1
    have hvalue : (Expr.nary .sum [absCall, .var "z"]).renameCalls m =
        .nary .sum [.call (.entry "abs_0") [.var "x"] [], .var "z"] :=
      (Action.assign.inj (Instruction.mk.inj hinstruction).2).2
    have hchildren := congrArg Expr.children hvalue
    rw [Expr.children_renameCalls] at hchildren
    exact get?_of_callee?_renameCalls rfl (by decide)
      (congrArg Expr.callee? (List.cons.inj hchildren).1)
  obtain ⟨c, results, s, hfinal, -, hc⟩ := ((hcalls absCall _ hname).2 linkedFrom_absTable
    absInstruction (List.mem_cons_self ..) visitsAt_absCall ⟨s, hvisit⟩).1 ⟨_, s', hanswer⟩
  exact ⟨k', t', c, results, s, h, hfinal, hc⟩

/-- A kernel that calls `sqrt` while the type of its argument is not final. -/
def staleKernel : Kernel := { Kernel.empty "k" with
  args := [⟨"s", .known (.vector .float32 4), .input⟩, ⟨"f", .known .float32, .input⟩]
  temporaries := [⟨"r", .unknown, .temporary⟩, ⟨"y", .unknown, .temporary⟩,
    ⟨"p", .unknown, .temporary⟩]
  instructions := [
    ⟨"r", .assign (.var "r") (.nary .sum [.call (.bare "sqrt") [.var "y"] [], .var "f"])⟩,
    ⟨"y0", .assign (.var "y") (.var "f")⟩,
    ⟨"y1", .assign (.var "y") (.var "p")⟩,
    ⟨"p", .assign (.var "p") (.nary .sum [.var "y", .var "s", .var "r"])⟩] }

/-- A call can keep a specialization for a type that its argument had on the way: `y` is a vector in
the end, for which there is no `sqrt`. -/
theorem renamed_call_without_answer :
    ∃ k' t' s, inferKernel .cLike 30 true staleKernel Table.empty.beginEdit.1 = .ok (k', t') ∧
      k'.expand.map (·.instructions) = .ok (⟨"r", .assign (.var "r")
        (.nary .sum [.call (.entry "sqrt_0") [.var "y"] [], .var "f"])⟩ ::
          staleKernel.instructions.tail) ∧
      attempt (answerOf ⟨.cLike, staleKernel, k'.types, inferKernel .cLike 29 true⟩
        (.call (.bare "sqrt") [.var "y"] [])) t' = .ok (none, s) := by
  have hfinal : finalAnswer staleKernel Table.empty.beginEdit.1 29
      ⟨"r", .assign (.var "r") (.nary .sum [.call (.bare "sqrt") [.var "y"] [], .var "f"])⟩
      (.call (.bare "sqrt") [.var "y"] []) = some (
        ⟨"r", .assign (.var "r")
          (.nary .sum [.call (.entry "sqrt_0") [.var "y"] [], .var "f"])⟩ ::
        staleKernel.instructions.tail, true, false) := by cbv
  obtain ⟨k', t', _, found, _, s, h, hexpand, -, -, hanswer, hfound⟩ :=
    exists_of_finalAnswer hfinal
  obtain rfl : found = none := by simpa using hfound
  exact ⟨k', t', s, h, hexpand, hanswer⟩

end KernelTyping
