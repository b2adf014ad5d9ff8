import KernelTyping.Proofs.Inference.Overloads
import KernelTyping.Proofs.Inference.Recorded

/-!
# KernelTyping.Proofs.Inference.VisitedCalls — which calls are specialized

A call that is renamed is specialized: it refers to an entry with a recorded signature
(`Renames.Specialized`).  A call with an answer for the final types is renamed wherever the visit of
an instruction gets to it and comes to an end (`visited_calls_specialized`).  No visit gets to the
calls in index expressions (`indexedKernel_not_specialized`), and what a visit has found before it
fails is dropped (`mixedKernel_not_specialized`).
-/

namespace KernelTyping

open Evaluation

/-! ### Specialized entries -/

/-- A call refers to an entry of the table with a recorded signature. -/
def Table.specializes (t : Table) (call : Expr) : Bool :=
  match call.callee? with
  | some (.entry name) => t.isSpecialized name
  | some (.bare _) | none => false

/-- All names that are recorded are those of specialized entries. -/
def Renames.Specialized (r : Renames) (t : Table) : Prop :=
  ∀ call name, r.get? call = some name → t.isSpecialized name = true

namespace Renames.Specialized

variable {r : Renames} {t : Table}

/-- A call that is renamed is specialized. -/
theorem specializes (h : r.Specialized t) {call : Expr} (hcall : call.isCall = true) {name : String}
    (hname : r.get? call = some name) : t.specializes (call.renameCalls r) = true := by
  rw [Table.specializes, Expr.callee?_renameCalls hcall, hname]
  exact h call name hname

end Renames.Specialized

namespace Evaluation

variable {ctx : Context}

/-- What a call resolves to has results, and so a signature. -/
theorem signature_of_answer {callee : Callee} {args : List Expr} {keywords : List (String × Expr)}
    {types : List (Option ElementType)} {t u : Table} {c : Callable} {results : List ElementType}
    (h : answer ctx callee args keywords types t = .ok (some (c, results), u)) :
    c.signature.isSome = true := by
  unfold answer at h
  cases callee with
  | entry name =>
    obtain ⟨⟨specialized, v⟩, -, h⟩ := bind_eq_ok.1 h
    obtain ⟨hfound, -⟩ := Prod.mk.inj (Except.ok.inj h)
    obtain ⟨results, hresults, hpair⟩ := Option.map_eq_some_iff.1 hfound
    obtain ⟨rfl, -⟩ := Prod.mk.inj hpair
    cases hsignature : specialized.signature with
    | none => simp [Callable.results?, hsignature] at hresults
    | some _ => rfl
  | bare name =>
    obtain ⟨hfound, -⟩ := Prod.mk.inj (Except.ok.inj h)
    obtain ⟨_, -, hpair⟩ := Option.map_eq_some_iff.1 hfound
    obtain ⟨rfl, -⟩ := Prod.mk.inj hpair
    rfl

/-- A call resolves to a specialized entry. -/
theorem isSpecialized_of_resolution (hinfer : GrowsTable ctx.infer) {callee : Callee}
    {args : List Expr} {keywords : List (String × Expr)} {types : List (Option ElementType)}
    {t u : Table} {results : List ElementType} {name : String} (hedit : t.isEditing = true)
    (h : resolution ctx callee args keywords types t = .ok (some (results, name), u)) :
    u.isSpecialized name = true := by
  rw [resolution_eq hinfer hedit] at h
  match hanswer : answer ctx callee args keywords types t with
  | .error _ =>
    rw [hanswer] at h
    cases h
  | .ok (none, v) =>
    rw [hanswer] at h
    cases (Prod.mk.inj (Except.ok.inj h)).1
  | .ok (some (c, results), v) =>
    rw [hanswer] at h
    obtain ⟨hresolved, rfl⟩ := Prod.mk.inj (Except.ok.inj h)
    obtain ⟨-, rfl⟩ := Prod.mk.inj (Option.some.inj hresolved)
    rw [Table.isSpecialized, Table.get?_put]
    exact signature_of_answer hanswer

/-- A call is specialized from the time when it is resolved. -/
theorem recording_specialized (hinfer : GrowsTable ctx.infer) :
    Recording ctx fun t _ name => t.isSpecialized name = true where
  grows h ht := ht.isSpecialized h
  resolve hedit h := isSpecialized_of_resolution hinfer hedit h

end Evaluation

namespace Inference

/-! ### What a run renames -/

section Run

variable {target : Target} {fuel : Nat} {complete : Bool} {e : Kernel} {t : Table}

/-- The names that a run records are those of specialized entries. -/
theorem specialized_of_inferExpanded {p : Progress} (ht : t.isEditing = true)
    (hp : inferExpanded (inferContext target fuel e) complete fuel t = .ok p) :
    p.renames.Specialized p.table :=
  (steps_of_inferExpanded hp).all (recording_specialized (inferKernel_grows target fuel true))
    (inferKernel_grows target fuel true) (.start ht _) (.empty t)

/-- A call that no instruction evaluates is not recorded. -/
theorem get?_eq_none_of_not_visited {p : Progress} (ht : t.isEditing = true)
    (hp : inferExpanded (inferContext target fuel e) complete fuel t = .ok p) {call : Expr}
    (hnowhere : ∀ i ∈ e.instructions, ∀ tuple value, i.value? = some value →
      ¬VisitsValue tuple value call) : p.renames.get? call = none := by
  rw [← Option.not_isSome_iff_eq_none]
  intro hrecorded
  refine (steps_of_inferExpanded hp).recordsOnly (N := fun d => d ≠ call)
    (inferKernel_grows target fuel true) (writersIn_ofName _ _) ?_ (.start ht _)
    (fun _ h => nomatch h) call hrecorded rfl
  rintro i hi value tuple callee args keywords hvalue hvisits rfl
  exact hnowhere i hi tuple value hvalue hvisits

end Run

/-- From a table that inference passed through, the visit of an instruction ended early. -/
def EndsEarly (ctx : Context) (t u : Table) (i : Instruction) : Prop :=
  ∃ T s, t.Grows T ∧ T.Grows u ∧ attempt (visit ctx i) T = .ok (none, s)

end Inference

open Inference

/-- **Visited calls are specialized.**  Inference on a kernel that succeeds renames calls of the
expanded kernel; each call that it renames refers to a specialized entry from then on.  A call that
is evaluated where an instruction is visited is specialized, unless at the last visit of that
instruction the evaluation ended early or the call had no answer.  If no entry that the kernel can
reach refers to a name without an entry, a call with an answer for the final types and table is
specialized, unless the last visit of each instruction with it ended early.  If all entries that the
kernel can reach are in the table from the start, such a call is specialized, unless the visit of
each instruction with it ends early from the final table.  A call that is evaluated nowhere keeps
what it refers to. -/
theorem visited_calls_specialized {target : Target} {fuel : Nat} {complete : Bool}
    {k k' e : Kernel} {t t' : Table}
    (h : inferKernel target (fuel + 1) complete k t = .ok (k', t')) (he : k.expand = .ok e) :
    let ctx : Context := ⟨target, e, k'.types, inferKernel target fuel true⟩
    ∃ m : Renames,
      k'.expand.map (·.instructions) =
        .ok (e.instructions.map (·.mapExpressions (Expr.renameCalls m))) ∧
      ∀ call, call.isCall = true →
        ((call.renameCalls m).callee? = call.callee? ∨
          t'.specializes (call.renameCalls m) = true) ∧
        (∀ i ∈ e.instructions, VisitsAt i call →
          t'.specializes (call.renameCalls m) = true ∨ EndsEarly ctx t t' i ∨
            AnswerBetween ctx t t' call none) ∧
        (t.Intact (t.Reaches k) →
          (∃ found s, attempt (answerOf ctx call) t' = .ok (some found, s)) →
          t'.specializes (call.renameCalls m) = true ∨
            ∀ i ∈ e.instructions, VisitsAt i call → EndsEarly ctx t t' i) ∧
        (t.LinkedFrom k → (∃ found s, attempt (answerOf ctx call) t' = .ok (some found, s)) →
          t'.specializes (call.renameCalls m) = true ∨
            ∀ i ∈ e.instructions, VisitsAt i call →
              ¬∃ s, attempt (visit ctx i) t' = .ok (some (), s)) ∧
        ((∀ i ∈ e.instructions, ∀ tuple value, i.value? = some value →
            ¬VisitsValue tuple value call) →
          (call.renameCalls m).callee? = call.callee?) := by
  intro ctx
  obtain ⟨p, hp, ht, rfl, hcompletes, hexpand⟩ := exists_progress_of_inferKernel h he
  have hspecialized := specialized_of_inferExpanded ht hp
  have hgrows := inferKernel_grows target fuel true
  have hvisit : visit ctx = visit ⟨target, e, p.env, _⟩ := funext fun i =>
    compatible_eq.visit (relatedAt_of_completes (inferContext target fuel e) hcompletes i)
  refine ⟨p.renames, hexpand, fun call hcall => ?_⟩
  have hkept (hnone : p.renames.get? call = none) :
      (call.renameCalls p.renames).callee? = call.callee? := by
    rw [Expr.callee?_renameCalls hcall, hnone]
    rfl
  have hlast := recordedLast_or_not (inferContext target fuel e) hgrows ht hp call
  simp only [RecordedLast, NotRecordedLast, ← hvisit] at hlast
  have hgrown (hintact : t.Intact (t.Reaches k)) : t.GrowsGrounded p.table :=
    (steps_of_inferExpanded hp).growsGrounded he ht hintact
  have honly := instructionsOnly_of_expand (k.callsOnly_reaches t) he
  have hrepeats {i : Instruction} (hi : i ∈ e.instructions) (hvisits : VisitsAt i call) :
      RepeatsAt (t.Reaches k) (answerOf ctx call) :=
    repeatsAt_answerOf_reaches k'.types (hvisits.callsOnly honly hi)
  refine ⟨?_, fun i hi hvisits => ?_, fun hintact hanswered => ?_, fun hlinked hanswered => ?_,
    fun hnowhere => ?_⟩
  · cases hname : p.renames.get? call with
    | none => exact .inl (hkept hname)
    | some name => exact .inr (hspecialized.specializes hcall hname)
  · rcases hlast with ⟨name, hname, -⟩ | hnone
    · exact .inl (hspecialized.specializes hcall hname)
    · exact .inr (NotRecordedLast.answer hnone hgrows ht hcall (mem_filter_of_visitsAt hi hvisits)
        hvisits)
  · rcases hlast with ⟨name, hname, -⟩ | hnone
    · exact .inl (hspecialized.specializes hcall hname)
    · refine .inr fun i hi hvisits => ?_
      refine (NotRecordedLast.answer hnone hgrows ht hcall (mem_filter_of_visitsAt hi hvisits)
        hvisits).resolve_right fun hunanswered => ?_
      -- without an answer on the way there would be none in the end
      obtain ⟨r, hfinal, -⟩ := AnswerBetween.final hunanswered (hrepeats hi hvisits) ht
        hintact.groundedAt_reaches (hgrown hintact)
      obtain ⟨found, s, hfound⟩ := hanswered
      rw [hfound] at hfinal
      cases hfinal
  · rcases hlast with ⟨name, hname, -⟩ | hnone
    · exact .inl (hspecialized.specializes hcall hname)
    · refine .inr fun i hi hvisits hends => ?_
      obtain ⟨r, hfinal⟩ := NotRecordedLast.attempt_eq_none hnone hgrows
        (inferKernel_sameTypes target fuel true) honly ht hlinked.linked (hgrown hlinked.intact)
        (hrepeats hi hvisits) (List.filter_subset_self _) hcall (mem_filter_of_visitsAt hi hvisits)
        hvisits hends
      obtain ⟨found, s, hfound⟩ := hanswered
      rw [hfound] at hfinal
      cases hfinal
  · exact hkept (get?_eq_none_of_not_visited ht hp hnowhere)

theorem visited_calls_specialized_cyclicKernel :
    ∃ k' t' m, inferKernel .cLike 8 true cyclicKernel absTable = .ok (k', t') ∧
      k'.expand.map (·.instructions) =
        .ok (cyclicKernel.instructions.map (·.mapExpressions (Expr.renameCalls m))) ∧
      t'.specializes (absCall.renameCalls m) = true := by
  obtain ⟨k', t', visited, found, s, s', h, -, hvisit, hends, hanswer, hfound⟩ :=
    exists_of_finalAnswer finalAnswer_absCall
  obtain ⟨_, rfl⟩ := Option.isSome_iff_exists.1 hends
  obtain ⟨_, rfl⟩ := Option.isSome_iff_exists.1 hfound
  obtain ⟨m, hrenamed, hcalls⟩ := visited_calls_specialized (e := cyclicKernel) h rfl
  obtain ⟨-, -, -, hlinked, -⟩ := hcalls absCall rfl
  refine ⟨k', t', m, h, hrenamed, ?_⟩
  rcases hlinked linkedFrom_absTable ⟨_, s', hanswer⟩ with hspecialized | hnever
  · exact hspecialized
  · exact absurd ⟨s, hvisit⟩ (hnever absInstruction (List.mem_cons_self ..) visitsAt_absCall)

/-! ### Calls that stay generic -/

/-- The instructions of a typed kernel in expanded form, and whether a call has a callable for the
final types and table and whether it is specialized. -/
def finalCall (k : Kernel) (t : Table) (complete : Bool) (fuel : Nat) (call : Expr) :
    Option (List Instruction × Bool × Bool) :=
  match inferKernel .cLike (fuel + 1) complete k t with
  | .ok (k', t') =>
    let ctx : Context := ⟨.cLike, k, k'.types, inferKernel .cLike fuel true⟩
    match k'.expand, attempt (answerOf ctx call) t' with
    | .ok e, .ok (found, _) => some (e.instructions, found.isSome, t'.specializes call)
    | _, _ => none
  | .error _ => none

theorem exists_of_finalCall {k : Kernel} {t : Table} {complete : Bool} {fuel : Nat} {call : Expr}
    {is : List Instruction} {specialized : Bool}
    (h : finalCall k t complete fuel call = some (is, true, specialized)) :
    ∃ k' t' found s, inferKernel .cLike (fuel + 1) complete k t = .ok (k', t') ∧
      k'.expand.map (·.instructions) = .ok is ∧
      attempt (answerOf ⟨.cLike, k, k'.types, inferKernel .cLike fuel true⟩ call) t' =
        .ok (some found, s) ∧ t'.specializes call = specialized := by
  unfold finalCall at h
  split at h
  case h_1 k' t' hinfer =>
    dsimp only at h
    split at h
    case h_1 e found s hexpand hanswer =>
      obtain ⟨rfl, hflags⟩ := Prod.mk.inj (Option.some.inj h)
      obtain ⟨hfound, rfl⟩ := Prod.mk.inj hflags
      obtain ⟨answer, rfl⟩ := Option.isSome_iff_exists.1 hfound
      exact ⟨k', t', answer, s, hinfer, by rw [hexpand]; rfl, hanswer, rfl⟩
    case h_2 => cases h
  case h_2 => cases h

/-- A kernel whose only calls stand in index expressions. -/
def indexedKernel : Kernel := { Kernel.empty "k" with
  args := [⟨"x", .known .float32, .input⟩, ⟨"a", .known .float32, .input⟩,
    ⟨"y", .unknown, .output⟩]
  instructions := [⟨"y", .assign (.subscript "y" [absCall])
    (.subscript (.var "a") [absCall])⟩] }

/-- Indices are not evaluated, so that the calls in them stay generic, although their arguments have
known types and the entry takes them. -/
theorem indexedKernel_not_specialized :
    ∃ k' t' found s, inferKernel .cLike 8 true indexedKernel absTable = .ok (k', t') ∧
      k'.expand.map (·.instructions) = .ok indexedKernel.instructions ∧
      attempt (answerOf ⟨.cLike, indexedKernel, k'.types, inferKernel .cLike 7 true⟩ absCall) t' =
        .ok (some found, s) ∧ t'.specializes absCall = false :=
  exists_of_finalCall (by cbv)

/-- A kernel that calls a function and casts a value without a type in one expression. -/
def mixedKernel : Kernel := { Kernel.empty "k" with
  args := [⟨"x", .known .float32, .input⟩, ⟨"u", .unknown, .input⟩, ⟨"y", .unknown, .output⟩]
  instructions := [⟨"y", .assign (.var "y") (.nary .sum
    [absCall, .cast (.scalar .int8) (.var "u")])⟩] }

/-- The cast has no type yet, and with it the visit loses the call that it has resolved before. -/
theorem mixedKernel_not_specialized :
    ∃ k' t' found s, inferKernel .cLike 8 false mixedKernel absTable = .ok (k', t') ∧
      k'.expand.map (·.instructions) = .ok mixedKernel.instructions ∧
      attempt (answerOf ⟨.cLike, mixedKernel, k'.types, inferKernel .cLike 7 true⟩ absCall) t' =
        .ok (some found, s) ∧ t'.specializes absCall = false :=
  exists_of_finalCall (by cbv)

end KernelTyping
