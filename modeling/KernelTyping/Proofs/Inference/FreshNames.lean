import KernelTyping.Proofs.Inference.Additions
import KernelTyping.Proofs.Inference.Reordering

/-!
# KernelTyping.Proofs.Inference.FreshNames — calls of entries that inference adds

A call is resolved only if its entry is in the table at that moment (`AnswerBetween.contains`), and a
complete kernel has entries for all its calls in the end (`contains_of_inferKernel`).  An entry that
was not there from the start is a specialization under a name made for it
(`visited_entry_generated`).  Fresh names are not taken in the table, but they can stand in the
kernel: a call that is visited after the name was made is one of the new entry
(`nestedCalls_captured`).
-/

namespace KernelTyping

open Evaluation Inference

/-! ### Entries of resolved calls -/

namespace Evaluation

variable {ctx : Context} {name : String} {args : List Expr} {keywords : List (String × Expr)}

/-- A call that was asked for its answer on the way refers to an entry of the table at the end. -/
theorem AnswerBetween.contains (hgrows : GrowsTable ctx.infer) {t u : Table}
    {found : Option (Callable × List ElementType)}
    (h : AnswerBetween ctx t u (.call (.entry name) args keywords) found) :
    u.contains name = true := by
  obtain ⟨T, m, -, hexec, hm⟩ := h
  obtain ⟨types, r, -, hanswered⟩ := exec_bind_eq_ok.1 hexec
  rw [exec_answerFor] at hanswered
  cases hanswer : answer ctx (.entry name) args keywords types r.table with
  | error e =>
    rw [hanswer] at hanswered
    cases hanswered
  | ok found =>
    obtain ⟨a, v⟩ := found
    rw [hanswer] at hanswered
    obtain ⟨-, rfl⟩ := Prod.mk.inj hanswered
    exact hm.contains ((answer_grows hgrows hanswer).contains (contains_of_answer hanswer))

/-- A call of an entry is recorded only if the entry is in the table. -/
theorem recording_contains (hgrows : GrowsTable ctx.infer) :
    Recording ctx fun t call _ =>
      ∀ entry, call.callee? = some (.entry entry) → t.contains entry = true where
  grows h ht entry hentry := ht.contains (h entry hentry)
  resolve {callee args keywords types t u results name} hedit h entry hentry := by
    obtain rfl := Option.some.inj hentry
    obtain ⟨hgrown, -⟩ := resolution_spec hgrows hedit h
    rw [resolution_eq hgrows hedit] at h
    obtain ⟨⟨found, v⟩, hanswer, -⟩ := map_eq_ok.1 h
    exact hgrown.contains (contains_of_answer hanswer)

end Evaluation

/-! ### Calls of the expanded kernel -/

section Run

variable {target : Target} {fuel : Nat} {complete : Bool} {k k' e : Kernel} {t t' : Table}
  {name : String}

/-- Where inference succeeds on a kernel that is to be complete, all entries that the expanded kernel
calls are in the table at the end. -/
theorem contains_of_inferKernel
    (h : inferKernel target (fuel + 1) true k t = .ok (k', t')) (he : k.expand = .ok e)
    {i : Instruction} (hi : i ∈ e.instructions) {x : Expr} (hx : x ∈ i.expressions)
    (hname : x.Mentions (.entry name)) : t'.contains name = true := by
  obtain ⟨ht, e', p, he', hp, hfinish⟩ := inferWith_eq_ok.1 h
  obtain rfl := Except.ok.inj (he'.symm.trans he)
  obtain ⟨hrename, rfl, hchecks⟩ := finishKernel_eq_ok.1 hfinish
  obtain ⟨hresolved, -⟩ := hchecks rfl
  have hgrows := inferKernel_grows target fuel true
  have hsteps := steps_of_inferExpanded hp
  have hsound := (hsteps.grows hgrows (.start ht _)).2
  have hrecorded := hsteps.all (recording_contains hgrows) hgrows (.start ht _) (.empty t)
  have hnormal := normal_of_inferExpanded (inferContext target fuel e') hgrows he ht hp
  obtain ⟨call, hsub, hcallee⟩ := hname
  have hcall : call ∈ x.calls := Expr.mem_calls.2 ⟨hsub, by cases call <;> first | rfl | cases hcallee⟩
  -- the check at the end passes over the calls that are recorded, which had their entries before
  cases hcontains : p.renames.contains call with
  | true =>
    obtain ⟨new, hnew⟩ := Option.isSome_iff_exists.1 hcontains
    exact hrecorded call new hnew name hcallee
  | false =>
    rw [Kernel.checkFunctionsResolved_rename_withTypes hnormal he (fun _ _ => hsound.entry) hrename]
      at hresolved
    have hopen : e'.openFault? p.renames p.table = none := by
      cases hfault : e'.openFault? p.renames p.table with
      | none => rfl
      | some f =>
        rw [hfault] at hresolved
        cases hresolved
    have hfault := List.findSome?_eq_none_iff.1 (List.findSome?_eq_none_iff.1 hopen i hi) call
      (List.mem_flatMap.2 ⟨x, hx, hcall⟩)
    cases call with
    | call callee args keywords =>
      obtain rfl := Option.some.inj hcallee
      simpa [Table.openFault?, hcontains, Table.callFault?] using hfault
    | _ => cases hcallee

/-- Where inference succeeds, a call of an entry that is evaluated where an instruction is visited
has its entry in the table at the end; or types may stay open, and the last visit of the instruction
ended early. -/
theorem contains_or_endsEarly
    (h : inferKernel target (fuel + 1) complete k t = .ok (k', t')) (he : k.expand = .ok e)
    {i : Instruction} (hi : i ∈ e.instructions) {args : List Expr}
    {keywords : List (String × Expr)} (hvisits : VisitsAt i (.call (.entry name) args keywords)) :
    t'.contains name = true ∨ complete = false ∧
      EndsEarly ⟨target, e, k'.types, inferKernel target fuel true⟩ t t' i := by
  cases complete with
  | true =>
    obtain ⟨tuple, value, hvalue, hvisits⟩ := hvisits
    have hmem : value ∈ i.expressions := by
      simp [Instruction.expressions, value?_of_evaluated? hvalue]
    exact .inl (contains_of_inferKernel h he hi hmem (hvisits.mentions (Expr.mentions_call ..)))
  | false =>
    obtain ⟨p, hp, ht, rfl, hcompletes, -⟩ := exists_progress_of_inferKernel h he
    have hgrows := inferKernel_grows target fuel true
    have hvisit : visit ⟨target, e, k'.types, inferKernel target fuel true⟩ =
        visit ⟨target, e, p.env, _⟩ := funext fun i =>
      compatible_eq.visit (relatedAt_of_completes (inferContext target fuel e) hcompletes i)
    rcases recordedLast_or_not (inferContext target fuel e) hgrows ht hp
      (.call (.entry name) args keywords) with ⟨_, -, hlast⟩ | hnone
    · obtain ⟨c, results, hanswer, -⟩ := hlast.answer hgrows ht
      exact .inl (hanswer.contains hgrows)
    · rcases hnone.answer hgrows ht rfl (mem_filter_of_visitsAt hi hvisits) hvisits with
        hearly | hanswer
      · refine .inr ⟨rfl, ?_⟩
        unfold EndsEarly
        rwa [hvisit]
      · exact .inl (hanswer.contains hgrows)

/-- **Calls of generated names.**  If inference succeeds on a kernel whose expansion evaluates a call
of an entry that is not in the table, then inference itself has added that entry: a specialization
under a name made for it.  Only where types may stay open is there another way, that the last visit
of the instruction met a temporary fault before the call. -/
theorem visited_entry_generated
    (h : infer target (fuel + 1) complete k t = .ok (k', t')) (he : k.expand = .ok e)
    {i : Instruction} (hi : i ∈ e.instructions) {args : List Expr}
    {keywords : List (String × Expr)} (hvisits : VisitsAt i (.call (.entry name) args keywords))
    (hname : t.contains name = false) :
    ∃ u, inferKernel target (fuel + 1) complete k t.beginEdit.1 = .ok (k', u) ∧
      (u.Generated name ∨ complete = false ∧
        EndsEarly ⟨target, e, k'.types, inferKernel target fuel true⟩ t.beginEdit.1 u i) := by
  obtain ⟨u, hu, -⟩ := infer_eq_ok_iff.1 h
  refine ⟨u, hu, ?_⟩
  rcases contains_or_endsEarly hu he hi hvisits with hcontains | hearly
  · exact .inl ((inferKernel_growsGenerated target (fuel + 1) complete hu).generated hcontains hname)
  · exact .inr hearly

end Run

/-! ### A call that captures a generated name -/

theorem not_contains_mathTable : mathTable.contains "abs_0" = false := by cbv

/-- The call of the entry that is not there yet is evaluated. -/
theorem visitsAt_nestedCalls (names : List String) :
    ∃ i ∈ (nestedCalls names).instructions, VisitsAt i (.call (.entry "abs_0") [.var "f"] []) :=
  ⟨⟨"y", .assign (.var "y") (.call (.entry "abs_0") [.var "f"] [])⟩, by simp [nestedCalls],
    false, _, rfl, .single (.self _)⟩

theorem visited_entry_generated_nestedCalls :
    mathTable.contains "abs_0" = false ∧ ∃ i k' t' u,
      i ∈ (nestedCalls ["x", "y"]).instructions ∧
      VisitsAt i (.call (.entry "abs_0") [.var "f"] []) ∧
      infer .cLike 4 true (nestedCalls ["x", "y"]) mathTable = .ok (k', t') ∧
      inferKernel .cLike 4 true (nestedCalls ["x", "y"]) mathTable.beginEdit.1 = .ok (k', u) ∧
      u.Generated "abs_0" := by
  obtain ⟨k', t', h⟩ := exists_infer_nestedCalls
  obtain ⟨i, hi, hvisits⟩ := visitsAt_nestedCalls ["x", "y"]
  obtain ⟨u, hu, hgenerated | ⟨hcomplete, -⟩⟩ := visited_entry_generated
    (e := nestedCalls ["x", "y"]) h rfl hi hvisits not_contains_mathTable
  · exact ⟨not_contains_mathTable, i, k', t', u, hi, hvisits, h, hu, hgenerated⟩
  · cases hcomplete

/-- Inference succeeds although the kernel evaluates a call of an entry that is not in the table; if
the variable of that call is visited first, inference refuses the same calls. -/
theorem nestedCalls_captured :
    mathTable.isEditing = false ∧ mathTable.contains "abs_0" = false ∧
      (∃ e, (nestedCalls ["x", "y"]).expand = .ok e ∧
        ∃ i ∈ e.instructions, VisitsAt i (.call (.entry "abs_0") [.var "f"] [])) ∧
      (∃ k' t', infer .cLike 4 true (nestedCalls ["x", "y"]) mathTable = .ok (k', t')) ∧
      infer .cLike 4 true (nestedCalls ["y", "x"]) mathTable =
        .error (.fault (.noEntry "abs_0")) :=
  ⟨by decide, not_contains_mathTable, ⟨_, rfl, visitsAt_nestedCalls _⟩, exists_infer_nestedCalls,
    infer_swap_nestedCalls⟩

end KernelTyping
