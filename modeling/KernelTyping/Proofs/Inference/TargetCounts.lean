import KernelTyping.Proofs.Inference.Assignments

/-!
# KernelTyping.Proofs.Inference.TargetCounts — as many values as targets

An instruction with several targets is checked to have as many values where it is visited as the
writer of a variable.  So the numbers agree under the types of the typed kernel if one of the
targets is a variable whose type was to be found (`targetCount_of_open`).  The visit that only
resolves the calls of an instruction does not look at its targets
(`miscountedKernel_targetCount`).
-/

namespace KernelTyping

open Evaluation Inference

namespace Inference

variable {ctx : Context} {i : Instruction} {targets : List Assignee} {value : Expr}

/-- A writer with several targets has as many values, if they are known. -/
theorem exec_evalTuple_of_writerType (hi : i.action = .assignAll targets value)
    (hmany : 1 < targets.length) {name : String} {found : Option ElementType} {s s' : State}
    (h : exec (writerType ctx name i) s = (.ok found, s')) :
    ∃ types, exec (evalTuple ctx value) s = (.ok types, s') ∧
      ∀ known, types = some known → known.length = targets.length := by
  unfold writerType at h
  rw [hi] at h
  dsimp only at h
  rw [if_pos hmany] at h
  obtain ⟨assigned, m, hassigned, hlast⟩ := exec_bind_eq_ok.1 h
  obtain ⟨-, rfl⟩ := Prod.mk.inj hlast
  obtain ⟨types, m', htypes, hassigned⟩ := exec_bind_eq_ok.1 hassigned
  cases types with
  | none =>
    obtain ⟨-, rfl⟩ := Prod.mk.inj hassigned
    exact ⟨none, htypes, nofun⟩
  | some known =>
    dsimp only at hassigned
    split at hassigned
    case isTrue hlength =>
      obtain ⟨-, rfl⟩ := Prod.mk.inj hassigned
      refine ⟨some known, htypes, ?_⟩
      rintro _ ⟨⟩
      exact hlength
    case isFalse => cases hassigned

end Inference

/-- **As many values as targets.**  Once inference has succeeded with all types expected, take an
instruction with several targets, one of which is a variable that had no type and is no loop bound.
If the types of its values are known under the types of the typed kernel, they are as many as the
targets: from a table that inference passed through and, if no entry that the kernel can reach
refers to a name without an entry, from the final table. -/
theorem targetCount_of_open {target : Target} {fuel : Nat} {k k' e : Kernel} {t t' : Table}
    (hids : (k.instructions.map (·.id)).Nodup)
    (h : inferKernel target (fuel + 1) true k t = .ok (k', t')) (he : k.expand = .ok e)
    {i : Instruction} (hi : i ∈ e.instructions) {targets : List Assignee} {value : Expr}
    (haction : i.action = .assignAll targets value) (hmany : 1 < targets.length)
    (hopen : ∃ a ∈ targets, ∃ v ∈ k.declarations, a.varName = v.name ∧
      v.dtype.isKnown = false ∧ v.name ∉ k.params) :
    let values := evalTuple ⟨target, e, k'.types, inferKernel target fuel true⟩ value
    (∃ T found s, t.Grows T ∧ exec values (.start T) = (.ok found, s) ∧ s.table.Grows t' ∧
      ∀ types, found = some types → types.length = targets.length) ∧
    (t.Intact (t.Reaches k) → ∃ found s, exec values (.start t') = (.ok found, s) ∧
      ∀ types, found = some types → types.length = targets.length) := by
  obtain ⟨a, ha, v, hv, hname, hunknown, hparam⟩ := hopen
  obtain ⟨p, hp, ht, rfl, hcompletes, -⟩ := exists_progress_of_inferKernel h he
  have hgrows := inferKernel_grows target fuel true
  let ctx := inferContext target fuel e
  have hvalue : i.value? = some value := by simp [Instruction.value?, haction]
  have hvalues : evalTuple ⟨target, e, k'.types, inferKernel target fuel true⟩ value =
      evalTuple { ctx with env := p.env } value :=
    (relatedAt_of_completes ctx hcompletes i).evalTuple hvalue
  -- the instruction is a writer of the open variable, so that an attempt evaluates it
  obtain ⟨type, T, s, -, hT, hattempt, hs⟩ := confirmed_of_inferExpanded ctx hgrows ht hp v.name
    (mem_openNames_of_expand he hv hunknown hparam)
  have htarget : a ∈ i.targets := by
    rw [Instruction.targets, haction]
    exact ha
  have hwriter : i ∈ (Member.ofName e v.name).writers :=
    hname ▸ mem_writers_of_mem_targets hids he hi htarget
  have hT' : T.isEditing = true := hT.isEditing_eq.trans ht
  obtain ⟨_, r, r', hbefore, hexec, hafter, -⟩ :=
    exists_writer_of_attempt { ctx with env := p.env } hgrows hwriter hT' hattempt
  obtain ⟨types, hexec, hcount⟩ := exec_evalTuple_of_writerType haction hmany hexec
  obtain ⟨s', hexec, htable⟩ := seesTable_evalTuple value r (.start r.table) types r' rfl hexec
  rw [← hvalues] at hexec
  have hs' : s'.table.Grows p.table := (htable ▸ hafter).trans hs
  refine ⟨⟨r.table, types, s', hT.trans hbefore, hexec, hs', hcount⟩, fun hintact => ?_⟩
  have hrepeats : RepeatsAt (t.Reaches k) (evalTuple { ctx with env := p.env } value) :=
    ((relatedAt_repeatsAt_reaches he t p.env hi).evalTuple hvalue).2
  rw [hvalues] at hexec ⊢
  have hfinal := (steps_of_inferExpanded hp).exec_final he ht hintact hrepeats (hT.trans hbefore)
    hexec hs'
  exact ⟨types, _, hfinal, hcount⟩

/-- Both results of a reduction are assigned, one of them to a variable with a type. -/
def pairKernel : Kernel := { Kernel.empty "k" with
  args := [⟨"x", .known .float32, .input⟩]
  temporaries := [⟨"m", .known .float32, .temporary⟩, ⟨"p", .unknown, .temporary⟩]
  inames := .ofList ["i"]
  instructions := [⟨"u", .assignAll [.var "m", .var "p"]
    (.tupleReduction .argmax ["i"] [.call (.bare "sqrt") [.var "x"] [], .var "i"])⟩] }

theorem targetCount_of_open_pairKernel :
    ∃ k' t' found s, inferKernel .cLike 8 true pairKernel Table.empty.beginEdit.1 = .ok (k', t') ∧
      exec (evalTuple ⟨.cLike, pairKernel, k'.types, inferKernel .cLike 7 true⟩
        (.tupleReduction .argmax ["i"] [.call (.bare "sqrt") [.var "x"] [], .var "i"]))
        (.start t') = (.ok found, s) ∧
      ∀ types, found = some types → types.length = 2 := by
  obtain ⟨k', t', h⟩ := exists_of_isOk
    (x := inferKernel .cLike 8 true pairKernel Table.empty.beginEdit.1) (by cbv)
  have hcalled : pairKernel.calledEntries.toList = [] := by cbv
  obtain ⟨-, hfinal⟩ := targetCount_of_open (by decide) h rfl (List.mem_singleton.2 rfl) rfl
    (by decide) ⟨.var "p", by simp, ⟨"p", .unknown, .temporary⟩, by decide, rfl, rfl, by decide⟩
  obtain ⟨found, s, hexec, hcount⟩ := hfinal (Table.linkedFrom_of_calledEntries hcalled _).intact
  exact ⟨k', t', found, s, h, hexec, hcount⟩

/-- Two values and three targets, all of which have types. -/
def miscountedKernel : Kernel := { Kernel.empty "k" with
  args := [⟨"x", .known .float32, .input⟩]
  temporaries := [⟨"a", .known .float32, .temporary⟩, ⟨"b", .known .int32, .temporary⟩,
    ⟨"c", .known .int32, .temporary⟩]
  inames := .ofList ["i"]
  instructions := [⟨"u", .assignAll [.var "a", .var "b", .var "c"]
    (.tupleReduction .argmax ["i"] [.var "x", .var "i"])⟩] }

/-- The types of several values after inference, from the final table. -/
def valueTypes (k : Kernel) (t : Table) (fuel : Nat) (value : Expr) : Option (List ElementType) :=
  match inferKernel .cLike (fuel + 1) true k t with
  | .ok (k', t') =>
    match exec (evalTuple ⟨.cLike, k, k'.types, inferKernel .cLike fuel true⟩ value)
        (.start t') with
    | (.ok found, _) => found
    | _ => none
  | .error _ => none

theorem exists_of_valueTypes {k : Kernel} {t : Table} {fuel : Nat} {value : Expr}
    {types : List ElementType} (h : valueTypes k t fuel value = some types) :
    ∃ k' t' s, inferKernel .cLike (fuel + 1) true k t = .ok (k', t') ∧
      exec (evalTuple ⟨.cLike, k, k'.types, inferKernel .cLike fuel true⟩ value) (.start t') =
        (.ok (some types), s) := by
  unfold valueTypes at h
  split at h
  case h_1 k' t' hinfer =>
    split at h
    case h_1 found s hexec => exact ⟨k', t', s, hinfer, h ▸ hexec⟩
    case h_2 => cases h
  case h_2 => cases h

/-- Inference succeeds although the numbers differ. -/
theorem miscountedKernel_targetCount :
    ∃ i ∈ miscountedKernel.instructions, ∃ targets value, i.action = .assignAll targets value ∧
      targets.length = 3 ∧ ∃ k' t' s,
        inferKernel .cLike 8 true miscountedKernel Table.empty.beginEdit.1 = .ok (k', t') ∧
        exec (evalTuple ⟨.cLike, miscountedKernel, k'.types, inferKernel .cLike 7 true⟩ value)
          (.start t') = (.ok (some [.float32, .int32]), s) := by
  have htypes : valueTypes miscountedKernel Table.empty.beginEdit.1 7
      (.tupleReduction .argmax ["i"] [.var "x", .var "i"]) = some [.float32, .int32] := by cbv
  obtain ⟨k', t', s, h, hexec⟩ := exists_of_valueTypes htypes
  exact ⟨_, List.mem_singleton.2 rfl, _, _, rfl, rfl, k', t', s, h, hexec⟩

end KernelTyping
