import KernelTyping.Proofs.ElementType.Conversion
import KernelTyping.Proofs.Evaluation.Trace
import KernelTyping.Proofs.Inference.Soundness

/-!
# KernelTyping.Proofs.Inference.Assignments — what is assigned fits the types of the typed kernel

The type of a variable combines what its writers assign to it.  So each value converts to the type
of the variable whose turn it is, which is also the type of the target as long as the target is no
field (`assignment_converts`).  Two things are not looked at: what an instruction assigns to a
variable that it has assigned to before (`repeatedKernel_not_converts`), and the field that a target
names (`fieldKernel_no_location`).
-/

namespace KernelTyping

open Evaluation

/-- The type of the location that a target names. -/
def Assignee.location? (types : Env) : Assignee → Option ElementType
  | var name | subscript name _ | linearSubscript name _ | view _ name _ => types[name]?
  | lookup aggregate field => (aggregate.location? types).bind (·.field? field)

/-- But for a field, the location has the type of the variable. -/
theorem Assignee.location?_eq {types : Env} {a : Assignee} (h : ∀ b field, a ≠ .lookup b field) :
    a.location? types = types[a.varName]? := by
  cases a with
  | lookup b field => exact absurd rfl (h b field)
  | _ => rfl

namespace Inference

/-! ### One assignment -/

/-- The type of the value that an instruction assigns to the target at a position. -/
def assignedType (ctx : Context) (i : Instruction) (j : Nat) : Eval (Option ElementType) := do
  match i.action with
  | .assign _ value => eval ctx value
  | .assignAll targets value =>
    if 1 < targets.length then
      let types ← evalTuple ctx value
      return types.bind (·[j]?)
    else eval ctx value
  | .barrier | .noop | .foreign _ _ _ => return none

variable {ctx : Context}

theorem compatible_assignedType {R : (α : Type) → Eval α → Eval α → Prop} (hR : Compatible R)
    {ctx₁ ctx₂ : Context} {i : Instruction} (h : RelatedAt R ctx₁ ctx₂ i) (j : Nat) :
    R _ (assignedType ctx₁ i j) (assignedType ctx₂ i j) := by
  unfold assignedType
  split
  case h_1 _ value hi => exact h.eval (by simp [Instruction.value?, hi])
  case h_2 targets value hi =>
    have hvalue : i.value? = some value := by simp [Instruction.value?, hi]
    split
    · exact hR.bind (h.evalTuple hvalue) fun types => hR.pure _
    · exact h.eval hvalue
  all_goals exact hR.pure none

/-- The first of several targets that names a variable, in the list of their types. -/
theorem find?_zip {targets : List Assignee} {types : List ElementType} {name : String} {j : Nat}
    {a : Assignee} (hlength : types.length = targets.length) (ha : targets[j]? = some a)
    (hname : a.varName = name) (hfirst : ∀ b ∈ targets.take j, b.varName ≠ name) :
    ((targets.zip types).find? (·.1.varName == name)).map (·.2) = types[j]? := by
  induction targets generalizing types j with
  | nil => cases ha
  | cons target targets ih =>
    cases types with
    | nil => cases hlength
    | cons type types =>
      cases j with
      | zero =>
        obtain rfl : target = a := by simpa using ha
        simp [hname]
      | succ j =>
        have htarget : target.varName ≠ name := hfirst target (by simp)
        have hrest := ih (by simpa using hlength) (by simpa using ha)
          fun b hb => hfirst b (by simp [hb])
        simpa [htarget] using hrest

/-- What a writer gives for a variable is what it assigns at the first position that names it. -/
theorem exec_assignedType {i : Instruction} {name : String} {j : Nat} {a : Assignee}
    (ha : i.targets[j]? = some a) (hname : a.varName = name)
    (hfirst : ∀ b ∈ i.targets.take j, b.varName ≠ name) {found : Option ElementType}
    {s s' : State} (h : exec (writerType ctx name i) s = (.ok found, s')) :
    exec (assignedType ctx i j) s = (.ok found, s') := by
  obtain ⟨id, action⟩ := i
  cases action with
  | assign target value => exact h
  | assignAll targets value =>
    unfold writerType at h
    unfold assignedType
    dsimp only at h ⊢
    split at h
    case isTrue hmany =>
      rw [if_pos hmany]
      obtain ⟨assigned, m, hassigned, h⟩ := exec_bind_eq_ok.1 h
      obtain ⟨types, m', htypes, hassigned⟩ := exec_bind_eq_ok.1 hassigned
      refine exec_bind_eq_ok.2 ⟨types, m', htypes, ?_⟩
      cases types with
      | none =>
        obtain ⟨hnone, rfl⟩ := Prod.mk.inj hassigned
        obtain rfl := Except.ok.inj hnone
        exact h
      | some types =>
        dsimp only at hassigned
        split at hassigned
        case isTrue hlength =>
          obtain ⟨hsome, rfl⟩ := Prod.mk.inj hassigned
          obtain rfl := Except.ok.inj hsome
          rw [Option.bind_some, find?_zip hlength ha hname hfirst] at h
          exact h
        case isFalse => cases hassigned
    case isFalse hone =>
      rw [if_neg hone]
      exact h
  | barrier | noop | foreign _ _ _ => cases ha

theorem relatedAt_seesTable (i : Instruction) : RelatedAt SeesTable ctx ctx i where
  eval _ := seesTable_eval _
  evalTuple _ := seesTable_evalTuple _

theorem mem_writeNames_of_mem_targets {i : Instruction} {a : Assignee} (ha : a ∈ i.targets) :
    a.varName ∈ i.writeNames := by
  obtain ⟨id, action⟩ := i
  cases action with
  | foreign _ _ _ => cases ha
  | _ => exact List.mem_map_of_mem ha

/-- An instruction of the expanded kernel is among the writers of each variable that it assigns to. -/
theorem mem_writers_of_mem_targets {k e : Kernel} (hids : (k.instructions.map (·.id)).Nodup)
    (he : k.expand = .ok e) {i : Instruction} (hi : i ∈ e.instructions) {a : Assignee}
    (ha : a ∈ i.targets) : i ∈ (Member.ofName e a.varName).writers := by
  rw [Member.ofName_of_expand hids he]
  exact List.mem_filter.2 ⟨hi, by simpa using mem_writeNames_of_mem_targets ha⟩

variable (ctx) in
/-- An attempt that finds the type of a variable evaluates each of its writers on the way, and what
these give converts to it. -/
theorem exists_writer_of_attempt (hinfer : GrowsTable ctx.infer) {m : Member} {i : Instruction}
    (hi : i ∈ m.writers) {T : Table} {type : ElementType} {s : State} (hT : T.isEditing = true)
    (h : attempt (writtenType ctx m) T = .ok (some type, s)) :
    ∃ found r r', T.Grows r.table ∧ exec (writerType ctx m.name i) r = (.ok found, r') ∧
      r'.table.Grows s.table ∧ ∀ value, found = some value → value.Converts type := by
  obtain ⟨types, r, htypes, hlift⟩ := exec_bind_eq_ok.1 (attempt_eq_some.1 h)
  have hcombine : ElementType.combine types = .ok (some type) := eq_ok_of_exec_lift hlift
  obtain ⟨-, rfl⟩ := Prod.mk.inj hlift
  have hevolution := evolution_grows hinfer
  have hwriterType (i : Instruction) :
      Evolves (fun s s' => s.Sound → s.table.Grows s'.table ∧ s'.Sound) (writerType ctx m.name i) :=
    (hevolution.compatible.writerType (hevolution.relatedAt i)).2
  obtain ⟨found, hfound, r₀, r₁, hbefore, hwriter, hafter⟩ :=
    hevolution.exists_of_mapM (fun i _ => hwriterType i) htypes hi
  obtain ⟨hgrows₀, hsound₀⟩ := hbefore (.start hT)
  have hsound₁ := (hwriterType i hwriter hsound₀).2
  refine ⟨found, r₀, r₁, hgrows₀, hwriter, (hafter hsound₁).1, ?_⟩
  rintro value rfl
  exact ElementType.converts_combine hcombine hfound

variable (ctx) in
/-- **What the writers of a variable assign converts to its type.**  The value at the first position
of a writer that names the variable is evaluated on the way. -/
theorem assigned_converts (hinfer : GrowsTable ctx.infer) {m : Member} {i : Instruction}
    (hi : i ∈ m.writers) {j : Nat} {a : Assignee} (ha : i.targets[j]? = some a)
    (hname : a.varName = m.name) (hfirst : ∀ b ∈ i.targets.take j, b.varName ≠ m.name)
    {T : Table} {type : ElementType} {s : State} (hT : T.isEditing = true)
    (h : attempt (writtenType ctx m) T = .ok (some type, s)) :
    ∃ T' found s', T.Grows T' ∧ exec (assignedType ctx i j) (.start T') = (.ok found, s') ∧
      s'.table.Grows s.table ∧ ∀ value, found = some value → value.Converts type := by
  obtain ⟨found, r, r', hbefore, hwriter, hafter, hconverts⟩ :=
    exists_writer_of_attempt ctx hinfer hi hT h
  -- only the table of the state at which the writer is evaluated decides
  have hassigned := exec_assignedType ha hname hfirst hwriter
  have hsees : SeesTable _ (assignedType ctx i j) (assignedType ctx i j) :=
    compatible_assignedType compatible_seesTable (relatedAt_seesTable i) j
  obtain ⟨s', hexec, htable⟩ := hsees r (.start r.table) found r' rfl hassigned
  exact ⟨r.table, found, s', hbefore, hexec, htable ▸ hafter, hconverts⟩

end Inference

open Inference

/-- **Assignments fit the types of the typed kernel.**  Once inference has succeeded with all types
expected, the target of an assignment to a variable that had no type has the type of the variable,
unless it is a field.  What is assigned at the first position of an instruction that names the
variable converts to that type, if it is known under the types of the typed kernel: from a table
that inference passed through and, if no entry that the kernel can reach refers to a name without
an entry, from the final table. -/
theorem assignment_converts {target : Target} {fuel : Nat} {k k' e : Kernel} {t t' : Table}
    (hids : (k.instructions.map (·.id)).Nodup)
    (h : inferKernel target (fuel + 1) true k t = .ok (k', t')) (he : k.expand = .ok e)
    {v : Variable} (hv : v ∈ k.declarations) (hopen : v.dtype.isKnown = false)
    (hparam : v.name ∉ k.params) {i : Instruction} (hi : i ∈ e.instructions) {j : Nat}
    {a : Assignee} (ha : i.targets[j]? = some a) (hname : a.varName = v.name) :
    let assigned := assignedType ⟨target, e, k'.types, inferKernel target fuel true⟩ i j
    ∃ type, k'.types[v.name]? = some type ∧
      ((∀ b field, a ≠ .lookup b field) → a.location? k'.types = some type) ∧
      ((∀ b ∈ i.targets.take j, b.varName ≠ v.name) →
        (∃ T found s, t.Grows T ∧ exec assigned (.start T) = (.ok found, s) ∧ s.table.Grows t' ∧
          ∀ value, found = some value → value.Converts type) ∧
        (t.Intact (t.Reaches k) → ∃ found s, exec assigned (.start t') = (.ok found, s) ∧
          ∀ value, found = some value → value.Converts type)) := by
  obtain ⟨p, hp, ht, rfl, hcompletes, -⟩ := exists_progress_of_inferKernel h he
  have hgrows := inferKernel_grows target fuel true
  let ctx := inferContext target fuel e
  have hassigned : assignedType ⟨target, e, k'.types, inferKernel target fuel true⟩ i j =
      assignedType { ctx with env := p.env } i j :=
    compatible_assignedType compatible_eq (relatedAt_of_completes ctx hcompletes i) j
  obtain ⟨type, T, s, htype, hT, hattempt, hs⟩ := confirmed_of_inferExpanded ctx hgrows ht hp v.name
    (mem_openNames_of_expand he hv hopen hparam)
  have htype : k'.types[v.name]? = some type := by
    have htype : p.env[v.name]? = some type := htype
    rw [hcompletes.eq, htype, Option.some_or]
  refine ⟨type, htype, fun hfield => ?_, fun hfirst => ?_⟩
  · rw [Assignee.location?_eq hfield, hname, htype]
  have hwriter : i ∈ (Member.ofName e v.name).writers :=
    hname ▸ mem_writers_of_mem_targets hids he hi (List.mem_of_getElem? ha)
  have hT' : T.isEditing = true := hT.isEditing_eq.trans ht
  obtain ⟨T', found, s', hTT', hexec, hs', hconverts⟩ :=
    assigned_converts { ctx with env := p.env } hgrows hwriter ha hname hfirst hT' hattempt
  rw [← hassigned] at hexec
  refine ⟨⟨T', found, s', hT.trans hTT', hexec, hs'.trans hs, hconverts⟩, fun hintact => ?_⟩
  have hrepeats : RepeatsAt (t.Reaches k) (assignedType { ctx with env := p.env } i j) :=
    (compatible_assignedType compatible_repeatsAt (relatedAt_repeatsAt_reaches he t p.env hi) j).2
  rw [hassigned] at hexec ⊢
  have hfinal := (steps_of_inferExpanded hp).exec_final he ht hintact hrepeats (hT.trans hTT') hexec
    (hs'.trans hs)
  exact ⟨found, _, hfinal, hconverts⟩

theorem assignment_converts_cyclicKernel :
    let i : Instruction := ⟨"z", .assign (.var "z") (.var "y")⟩
    ∃ k' t' type found s, inferKernel .cLike 8 true cyclicKernel absTable = .ok (k', t') ∧
      (Assignee.var "z").location? k'.types = some type ∧
      exec (assignedType ⟨.cLike, cyclicKernel, k'.types, inferKernel .cLike 7 true⟩ i 0)
        (.start t') = (.ok found, s) ∧
      ∀ value, found = some value → value.Converts type := by
  intro i
  obtain ⟨type, -, hlocation, hassigned⟩ := assignment_converts (e := cyclicKernel)
    (v := ⟨"z", .unknown, .temporary⟩) (i := i) (j := 0) (a := .var "z") (by decide)
    inferKernel_cyclicKernel rfl (by decide) rfl (by decide) (by decide) rfl rfl
  obtain ⟨-, hfinal⟩ := hassigned (by simp)
  obtain ⟨found, s, hexec, hconverts⟩ := hfinal (intact_absTable _)
  exact ⟨_, _, type, found, s, inferKernel_cyclicKernel, hlocation (by simp), hexec, hconverts⟩

/-! ### Targets that are not looked at -/

/-- The types that the location and the value of an assignment have after inference. -/
def assignmentTypes (k : Kernel) (t : Table) (fuel : Nat) (i : Instruction) (j : Nat)
    (a : Assignee) : Option (Option ElementType × ElementType) :=
  match inferKernel .cLike (fuel + 1) true k t with
  | .ok (k', t') =>
    match exec (assignedType ⟨.cLike, k, k'.types, inferKernel .cLike fuel true⟩ i j)
        (.start t') with
    | (.ok (some value), _) => some (a.location? k'.types, value)
    | _ => none
  | .error _ => none

theorem exists_of_assignmentTypes {k : Kernel} {t : Table} {fuel : Nat} {i : Instruction} {j : Nat}
    {a : Assignee} {location : Option ElementType} {value : ElementType}
    (h : assignmentTypes k t fuel i j a = some (location, value)) :
    ∃ k' t' s, inferKernel .cLike (fuel + 1) true k t = .ok (k', t') ∧
      a.location? k'.types = location ∧
      exec (assignedType ⟨.cLike, k, k'.types, inferKernel .cLike fuel true⟩ i j) (.start t') =
        (.ok (some value), s) := by
  unfold assignmentTypes at h
  split at h
  case h_1 k' t' hinfer =>
    split at h
    case h_1 value s hexec =>
      obtain ⟨rfl, rfl⟩ := Prod.mk.inj (Option.some.inj h)
      exact ⟨k', t', s, hinfer, rfl, hexec⟩
    case h_2 => cases h
  case h_2 => cases h

/-- Both results of a reduction are assigned to one variable. -/
def repeatedKernel : Kernel := { Kernel.empty "k" with
  args := [⟨"n", .known (.scalar .int8), .input⟩]
  temporaries := [⟨"v", .unknown, .temporary⟩]
  inames := .ofList ["i"]
  instructions := [⟨"v", .assignAll [.var "v", .var "v"]
    (.tupleReduction .argmax ["i"] [.var "n", .var "i"])⟩] }

/-- Only the value at the first position counts: the index that comes second does not fit. -/
theorem repeatedKernel_not_converts :
    ∃ i ∈ repeatedKernel.instructions, i.targets[1]? = some (.var "v") ∧ ∃ k' t' s,
      inferKernel .cLike 8 true repeatedKernel Table.empty.beginEdit.1 = .ok (k', t') ∧
      (Assignee.var "v").location? k'.types = some (.scalar .int8) ∧
      exec (assignedType ⟨.cLike, repeatedKernel, k'.types, inferKernel .cLike 7 true⟩ i 1)
        (.start t') = (.ok (some .int32), s) ∧
      ¬ElementType.int32.Converts (.scalar .int8) := by
  let i : Instruction := ⟨"v", .assignAll [.var "v", .var "v"]
    (.tupleReduction .argmax ["i"] [.var "n", .var "i"])⟩
  have htypes : assignmentTypes repeatedKernel Table.empty.beginEdit.1 7 i 1 (.var "v") =
      some (some (.scalar .int8), .int32) := by cbv
  obtain ⟨k', t', s, h, hlocation, hexec⟩ := exists_of_assignmentTypes htypes
  exact ⟨i, List.mem_singleton.2 rfl, rfl, k', t', s, h, hlocation, hexec, by decide⟩

/-- A field of a variable without a type is assigned. -/
def fieldKernel : Kernel := { Kernel.empty "k" with
  args := [⟨"f", .known .float32, .input⟩]
  temporaries := [⟨"y", .unknown, .temporary⟩]
  instructions := [⟨"y", .assign (.lookup (.var "y") "x") (.var "f")⟩] }

/-- The variable gets the type of its field, and so has no such field. -/
theorem fieldKernel_no_location :
    ∃ i ∈ fieldKernel.instructions, i.targets[0]? = some (.lookup (.var "y") "x") ∧ ∃ k' t' s,
      inferKernel .cLike 8 true fieldKernel Table.empty.beginEdit.1 = .ok (k', t') ∧
      (Assignee.lookup (.var "y") "x").location? k'.types = none ∧
      exec (assignedType ⟨.cLike, fieldKernel, k'.types, inferKernel .cLike 7 true⟩ i 0)
        (.start t') = (.ok (some .float32), s) := by
  let i : Instruction := ⟨"y", .assign (.lookup (.var "y") "x") (.var "f")⟩
  have htypes : assignmentTypes fieldKernel Table.empty.beginEdit.1 7 i 0
      (.lookup (.var "y") "x") = some (none, .float32) := by cbv
  obtain ⟨k', t', s, h, hlocation, hexec⟩ := exists_of_assignmentTypes htypes
  exact ⟨i, List.mem_singleton.2 rfl, rfl, k', t', s, h, hlocation, hexec⟩

end KernelTyping
