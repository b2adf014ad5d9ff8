import Mathlib
import KernelTyping.Proofs.Inference.FixedPoint
import KernelTyping.Proofs.Inference.Grounded
import KernelTyping.Target.CLike

/-!
# KernelTyping.Proofs.Inference.Soundness — the types of a typed kernel

At the end of inference every variable has the type that its writers assign to it, evaluated under
the types of the typed kernel (`writers_assign_type`).  The evaluation runs from a table that
inference passed through; where no entry that the kernel can reach refers to a name without an entry
it runs from the final table as well.
-/

namespace KernelTyping

open Evaluation

/-! ### Evaluation under the types of the typed kernel -/

namespace Evaluation

variable {ctx : Context} {E E' : Env}

/-- The types are those found and, where nothing was found, those declared. -/
structure Completes (k : Kernel) (E E' : Env) : Prop where
  eq (name : String) : E'[name]? = (E[name]?).or ((k.findVariable? name).bind (·.dtype.known?))

/-- The type of a variable without a declared one is what was found. -/
theorem Completes.eq_of_open {k : Kernel} (h : Completes k E E') {v : Variable}
    (hv : k.findVariable? v.name = some v) (hopen : v.dtype.isKnown = false) :
    E'[v.name]? = E[v.name]? := by
  have hunknown : v.dtype.known? = none := by simpa [Dtype.isKnown] using hopen
  rw [h.eq, hv, Option.bind_some, hunknown, Option.or_none]

/-- Declared types need not be listed among those found. -/
theorem variableType_of_completes (h : Completes ctx.kernel E E') (name : String) :
    variableType { ctx with env := E' } name = variableType { ctx with env := E } name := by
  have heq := h.eq name
  unfold variableType
  dsimp only
  split
  · rfl
  · split
    · rfl
    · cases hE : E[name]? with
      | some type =>
        rw [hE, Option.some_or] at heq
        rw [heq]
      | none =>
        rw [hE, Option.none_or] at heq
        cases hv : ctx.kernel.findVariable? name with
        | none =>
          rw [hv, Option.bind_none] at heq
          rw [heq]
        | some v =>
          rw [hv, Option.bind_some] at heq
          rw [heq]
          cases hdtype : v.dtype <;> simp [hdtype, Dtype.isKnown, Dtype.known?]

variable (ctx) in
theorem relatedAt_of_completes (h : Completes ctx.kernel E E') (i : Instruction) :
    RelatedAt (fun _ x y => x = y) { ctx with env := E' } { ctx with env := E } i where
  eval _ := by
    refine compatible_eq.eval ?_ _ (fun name _ => variableType_of_completes h name) ?_
    · rfl
    · intros; rfl
  evalTuple _ := by
    refine compatible_eq.evalTuple ?_ _ (fun name _ => variableType_of_completes h name) ?_
    · rfl
    · intros; rfl

end Evaluation

namespace Inference

theorem writtenType_of_completes (ctx : Context) {E E' : Env} (h : Completes ctx.kernel E E')
    (m : Member) : writtenType { ctx with env := E' } m = writtenType { ctx with env := E } m :=
  compatible_eq.writtenType fun i _ => relatedAt_of_completes ctx h i

/-! ### The types that are filled in -/

/-- Nothing is found for names that are no variables without a type. -/
theorem env_eq_none_of_steps {ctx : Context} {p q : Progress}
    (h : Steps ctx (openMembers ctx.kernel) p q) (hp : p.env = startEnv ctx.kernel) {name : String}
    (hname : name ∉ (untyped ctx.kernel).map (·.name)) : q.env[name]? = none := by
  rw [h.env_eq, hp, startEnv, Std.ExtTreeMap.getElem?_ofList_of_contains_eq_false]
  · rw [List.map_map, List.contains_eq_mem, decide_eq_false_iff_not]
    rintro hmem
    obtain ⟨other, hother, rfl⟩ := List.mem_map.1 hmem
    exact hname (List.mem_filter.1 hother).1
  · refine List.forall_mem_map.2 fun other hother => ?_
    rintro rfl
    exact hname (List.mem_filter.1 hother).1

theorem findVariable?_of_mem_untyped {k : Kernel} {name : String}
    (h : name ∈ (untyped k).map (·.name)) : (k.findVariable? name).isSome = true := by
  obtain ⟨v, hv, rfl⟩ := List.mem_map.1 h
  have hv : v ∈ k.declarations := by
    have := (List.mem_filter.1 hv).1
    simpa [Kernel.declarations, or_comm] using this
  rw [Kernel.findVariable?_eq, List.find?_isSome]
  exact ⟨v, hv, by simp⟩

theorem checkVariablesTyped_eq_ok {k : Kernel} :
    k.checkVariablesTyped = .ok () ↔ ∀ v ∈ k.declarations, v.dtype.isKnown = true := by
  unfold Kernel.checkVariablesTyped
  cases hfind : k.declarations.find? (!·.dtype.isKnown) with
  | some v =>
    refine iff_of_false nofun fun h => ?_
    have hopen := List.find?_some hfind
    simp [h v (List.mem_of_find?_eq_some hfind)] at hopen
  | none =>
    refine iff_of_true rfl fun v hv => ?_
    simpa using List.find?_eq_none.1 hfind v hv

theorem isKnown_of_checkVariablesTyped {k : Kernel} (h : k.checkVariablesTyped = .ok ())
    {v : Variable} (hv : v ∈ k.declarations) : v.dtype.isKnown = true :=
  checkVariablesTyped_eq_ok.1 h v hv

section Filled

variable {k k' e : Kernel} {p : Progress} {t : Table}

/-- But for its instructions, the typed kernel is the kernel with the types that were found. -/
theorem exists_instructions_of_finishKernel {complete : Bool}
    (h : finishKernel complete k p = .ok (k', t)) :
    ∃ is, k' = { k.withTypes p.env.toList with instructions := is } := by
  obtain ⟨hrename, -, -⟩ := finishKernel_eq_ok.1 h
  unfold Kernel.rename at hrename
  split at hrename
  · obtain rfl := Except.ok.inj hrename
    exact ⟨_, rfl⟩
  · obtain ⟨is, -, hrename⟩ := bind_eq_ok.1 hrename
    obtain rfl := Except.ok.inj hrename
    exact ⟨is, rfl⟩

theorem findVariable?_of_finishKernel {complete : Bool}
    (h : finishKernel complete k p = .ok (k', t)) (name : String) :
    k'.findVariable? name = (k.findVariable? name).map (.retype p.env[name]?) := by
  obtain ⟨is, rfl⟩ := exists_instructions_of_finishKernel h
  exact Kernel.findVariable?_withEnv k p.env name

/-- Of an expanded kernel, the writers of a variable are the instructions that write it, in program
order. -/
theorem Member.ofName_of_expand (hids : (k.instructions.map (·.id)).Nodup) (he : k.expand = .ok e)
    (name : String) :
    Member.ofName e name = ⟨name, e.instructions.filter (name ∈ ·.writeNames)⟩ := by
  rw [Member.ofName, Kernel.writers_eq_filter (Kernel.ids_of_expand he ▸ hids)]

theorem mem_openNames_of_expand (he : k.expand = .ok e) {v : Variable} (hv : v ∈ k.declarations)
    (hopen : v.dtype.isKnown = false) (hparam : v.name ∉ k.params) : v.name ∈ openNames e := by
  obtain ⟨is, -, rfl⟩ := Kernel.expand_eq_ok.1 he
  have hv : v ∈ k.temporaries ++ k.args := by simpa [Kernel.declarations, or_comm] using hv
  refine List.mem_filter.2 ⟨List.mem_map.2 ⟨v, List.mem_filter.2 ⟨hv, by simp [hopen]⟩, rfl⟩, ?_⟩
  rw [Bool.not_eq_true', ← Bool.not_eq_true, Std.ExtTreeSet.contains_iff_mem]
  exact hparam

end Filled

/-- The types of the typed kernel are those found and, where nothing was found, those declared. -/
theorem completes_types {target : Target} {infer : Inference} {complete : Bool} {fuel : Nat}
    {k k' e : Kernel} {t t' : Table} {p : Progress} (he : k.expand = .ok e)
    (hp : inferExpanded ⟨target, e, startEnv e, infer⟩ complete fuel t = .ok p)
    (h : finishKernel complete k p = .ok (k', t')) : Completes e p.env k'.types := by
  have hdeclared (name : String) : e.findVariable? name = k.findVariable? name := by
    rw [Kernel.findVariable?_eq, Kernel.findVariable?_eq, Kernel.declarations_of_expand he]
  refine ⟨fun name => ?_⟩
  rw [Kernel.getElem?_types, findVariable?_of_finishKernel h, hdeclared]
  cases hv : k.findVariable? name with
  | some v => cases p.env[name]? <;> rfl
  | none =>
    have hnone : p.env[name]? = none := by
      refine env_eq_none_of_steps (steps_of_inferExpanded hp) rfl fun hmem => ?_
      have := findVariable?_of_mem_untyped hmem
      rw [hdeclared, hv] at this
      cases this
    rw [hnone]
    rfl

/-- A run that succeeds comes to the final table and to the types of the typed kernel, which expands
to the expanded kernel with the recorded calls renamed. -/
theorem exists_progress_of_inferKernel {target : Target} {fuel : Nat} {complete : Bool}
    {k k' e : Kernel} {t t' : Table}
    (h : inferKernel target (fuel + 1) complete k t = .ok (k', t')) (he : k.expand = .ok e) :
    ∃ p, inferExpanded (inferContext target fuel e) complete fuel t = .ok p ∧
      t.isEditing = true ∧ p.table = t' ∧ Completes e p.env k'.types ∧
      k'.expand.map (·.instructions) =
        .ok (e.instructions.map (·.mapExpressions (Expr.renameCalls p.renames))) := by
  obtain ⟨ht, e', p, he', hp, hfinish⟩ := inferWith_eq_ok.1 h
  obtain rfl := Except.ok.inj (he'.symm.trans he)
  obtain ⟨hrename, rfl, -⟩ := finishKernel_eq_ok.1 hfinish
  have hnormal := normal_of_inferExpanded (inferContext target fuel e')
    (inferKernel_grows target fuel true) he ht hp
  obtain ⟨k'', hk'', -, hexpand⟩ := Kernel.rename_withTypes_spec hnormal he p.env.toList
  obtain rfl := Except.ok.inj (hk''.symm.trans hrename)
  refine ⟨p, hp, ht, rfl, completes_types he hp hfinish, ?_⟩
  rw [hexpand]
  rfl

end Inference

open Inference

/-- **Soundness of the fixed point.**  Once inference on a kernel has succeeded with all types
expected, every variable that had no type and is no loop bound has the type that its writers assign
to it, in program order and under the types of the typed kernel, from a table that inference passed
through.  If no entry that the kernel can reach refers to a name without an entry, the final table
gives that type as well, and nothing is added to it. -/
theorem writers_assign_type {target : Target} {fuel : Nat} {k k' e : Kernel} {t t' : Table}
    (hnames : (k.declarations.map (·.name)).Nodup) (hids : (k.instructions.map (·.id)).Nodup)
    (h : inferKernel target (fuel + 1) true k t = .ok (k', t')) (he : k.expand = .ok e)
    {v : Variable} (hv : v ∈ k.declarations) (hopen : v.dtype.isKnown = false)
    (hparam : v.name ∉ k.params) :
    let written := writtenType ⟨target, e, k'.types, inferKernel target fuel true⟩
      ⟨v.name, e.instructions.filter (v.name ∈ ·.writeNames)⟩
    ∃ type, k'.findVariable? v.name = some { v with dtype := .known type } ∧
      (∃ T s, t.Grows T ∧ attempt written T = .ok (some type, s) ∧ s.table.Grows t') ∧
      (t.Intact (t.Reaches k) →
        ∃ s, attempt written t' = .ok (some type, s) ∧ s.table = t') := by
  obtain ⟨ht, e', p, he', hp, hfinish⟩ := inferWith_eq_ok.1 h
  obtain rfl := Except.ok.inj (he'.symm.trans he)
  obtain ⟨-, rfl, -⟩ := finishKernel_eq_ok.1 hfinish
  have hgrows := inferKernel_grows target fuel true
  have hcompletes := completes_types he hp hfinish
  have hv' : k.findVariable? v.name = some v := Kernel.findVariable?_of_mem hnames hv
  obtain ⟨type, T, s, htype, hT, hattempt, hs⟩ :=
    confirmed_of_inferExpanded ⟨target, e', startEnv e', _⟩ hgrows ht hp v.name
      (mem_openNames_of_expand he hv hopen hparam)
  rw [Member.ofName_of_expand hids he] at hattempt
  rw [← writtenType_of_completes ⟨target, e', startEnv e', _⟩ hcompletes] at hattempt
  refine ⟨type, ?_, ⟨T, s, hT, hattempt, hs⟩, fun hintact => ?_⟩
  · have htype : p.env[v.name]? = some type := htype
    rw [findVariable?_of_finishKernel hfinish, hv', htype]
    rfl
  · let m : Member := ⟨v.name, e'.instructions.filter (v.name ∈ ·.writeNames)⟩
    have hrepeats : RepeatsAt (t.Reaches k)
        (writtenType { inferContext target fuel e' with env := k'.types } m) :=
      repeatsAt_writtenType_reaches he t k'.types fun i hi => (List.mem_filter.1 hi).1
    have hfinal := (steps_of_inferExpanded hp).exec_final he ht hintact hrepeats hT
      (attempt_eq_some.1 hattempt) hs
    exact ⟨_, attempt_eq_some.2 hfinal, rfl⟩

theorem exists_of_isOk {ε α β : Type} {x : Except ε (α × β)}
    (h : (match x with | .ok _ => true | .error _ => false) = true) : ∃ a b, x = .ok (a, b) := by
  match x, h with
  | .ok (a, b), _ => exact ⟨a, b, rfl⟩

/-- A table links every kernel that calls only entries of it, if its entries refer only to entries
of it. -/
theorem Table.linkedFrom_of_closed {t : Table} {k : Kernel}
    (hk : ∀ name ∈ k.calledEntries, t.contains name = true)
    (ht : ∀ name c, t.get? name = some c → ∀ callee ∈ c.callees, t.contains callee = true) :
    t.LinkedFrom k := by
  intro name hname
  cases hname with
  | called h => exact hk name h
  | callee _ hc hcallee => exact ht _ _ hc _ hcallee

/-- A kernel that calls no entry of the table reaches none. -/
theorem Table.linkedFrom_of_calledEntries {k : Kernel} (hk : k.calledEntries.toList = [])
    (t : Table) : t.LinkedFrom k := by
  have hnone (name : String) : ¬t.Reaches k name := by
    intro hname
    induction hname with
    | called h => rw [← Std.ExtTreeSet.mem_toList, hk] at h; cases h
    | callee _ _ _ ih => exact ih
  exact fun name hname => absurd hname (hnone name)

/-- A call of a builtin. -/
def absCall : Expr := .call (.entry "abs") [.var "x"] []

/-- Two variables that are assigned to each other, with a call of a builtin. -/
def cyclicKernel : Kernel := { Kernel.empty "cyclic" with
  args := [⟨"x", .known .float32, .input⟩, ⟨"y", .unknown, .output⟩]
  temporaries := [⟨"z", .unknown, .temporary⟩]
  instructions := [
    ⟨"y", .assign (.var "y") (.nary .sum [absCall, .var "z"])⟩,
    ⟨"z", .assign (.var "z") (.var "y")⟩] }

/-- The kernel with the types that are found for it. -/
def typedCyclic : Kernel := { Kernel.empty "cyclic" with
  args := [⟨"x", .known .float32, .input⟩, ⟨"y", .known .float32, .output⟩]
  temporaries := [⟨"z", .known .float32, .temporary⟩]
  instructions := [
    ⟨"y", .assign (.var "y") (.nary .sum [.call (.entry "abs_0") [.var "x"] [], .var "z"])⟩,
    ⟨"z", .assign (.var "z") (.var "y")⟩] }

def absLibrary : Table := Table.empty.insert "abs" (.ofBuiltin .abs)

/-- The library inside a transaction. -/
def absTable : Table := absLibrary.beginEdit.1

/-- The builtin for single precision numbers. -/
def absSingle : Callable :=
  { Callable.ofBuiltin .abs with signature := some (.ofLists [.float32] [.float32]) }

theorem inferKernel_cyclicKernel : inferKernel .cLike 8 true cyclicKernel absTable =
    .ok (typedCyclic, absTable.addFresh "abs" absSingle) := by cbv

theorem get?_absTable (name : String) :
    absTable.get? name = if "abs" = name then some (.ofBuiltin .abs) else none := by
  simp [absTable, absLibrary, Table.get?, Table.beginEdit, Table.insert, Table.empty, Table.isEditing,
    Std.ExtTreeMap.getElem?_insert]

/-- A builtin refers to no other entry. -/
theorem callees_of_get?_absTable {name : String} {c : Callable} (h : absTable.get? name = some c) :
    c.callees = [] := by
  rw [get?_absTable] at h
  split at h
  · obtain rfl := Option.some.inj h
    rfl
  · cases h

theorem intact_absTable (R : String → Prop) : absTable.Intact R := by
  intro name c _ hc callee hcallee
  rw [callees_of_get?_absTable hc] at hcallee
  cases hcallee

theorem linkedFrom_absTable : absTable.LinkedFrom cyclicKernel := by
  have hcalled : cyclicKernel.calledEntries.toList = ["abs"] := by cbv
  refine Table.linkedFrom_of_closed (fun name hname => ?_) fun name c hc callee hcallee => ?_
  · rw [← Std.ExtTreeSet.mem_toList, hcalled, List.mem_singleton] at hname
    rw [hname, Table.contains_eq_isSome, get?_absTable, if_pos rfl]
    rfl
  · rw [callees_of_get?_absTable hc] at hcallee
    cases hcallee

theorem writers_assign_type_cyclicKernel :
    ∃ k' t' type s, inferKernel .cLike 8 true cyclicKernel absTable = .ok (k', t') ∧
      k'.findVariable? "z" = some ⟨"z", .known type, .temporary⟩ ∧
      attempt (writtenType ⟨.cLike, cyclicKernel, k'.types, inferKernel .cLike 7 true⟩
        ⟨"z", cyclicKernel.instructions.filter ("z" ∈ ·.writeNames)⟩) t' = .ok (some type, s) ∧
      s.table = t' := by
  obtain ⟨type, htype, -, hfinal⟩ := writers_assign_type (e := cyclicKernel)
    (v := ⟨"z", .unknown, .temporary⟩) (by decide) (by decide) inferKernel_cyclicKernel rfl
    (by decide) rfl (by decide)
  obtain ⟨s, hattempt, hs⟩ := hfinal (intact_absTable _)
  exact ⟨_, _, type, s, inferKernel_cyclicKernel, htype, hattempt, hs⟩

/-! ### Entries that only the run itself makes -/

/-- A kernel that calls `abs_0`, a name that has no entry before inference has made one. -/
def earlyCallee : Kernel := { Kernel.empty "g" with
  args := [⟨"x", .known .float32, .input⟩, ⟨"n", .known (.scalar .int8), .input⟩,
    ⟨"b", .unknown, .output⟩]
  temporaries := [⟨"a", .unknown, .temporary⟩, ⟨"u", .unknown, .temporary⟩]
  instructions := [
    ⟨"a", .assign (.var "a") (.ite (.call (.entry "abs") [.var "n"] [])
      (.call (.bare "sqrt") [.call (.entry "abs_0") [.var "u"] []] []) (.var "a"))⟩,
    ⟨"u", .assign (.var "u") (.ite (.var "b") (.call (.entry "abs") [.var "x"] []) (.var "u"))⟩,
    ⟨"b", .assign (.var "b") (.ite (.var "n") (.binary .quotient (.var "a") (.var "n"))
      (.var "b"))⟩] }

def earlyCaller : Kernel := { Kernel.empty "k" with
  args := [⟨"x", .known .float32, .input⟩, ⟨"n", .known (.scalar .int8), .input⟩,
    ⟨"v", .unknown, .output⟩]
  instructions := [⟨"v", .assign (.var "v") (.call (.entry "g") [.var "x", .var "n"] [])⟩] }

def earlyTable : Table :=
  ((Table.empty.insert "abs" (.ofBuiltin .abs)).insert "g" (.ofKernel earlyCallee)).beginEdit.1

/-- The type that inference finds for a variable of an expanded kernel, and the type that its
writers assign to it in the end, from the final table. -/
def typesAfter (complete : Bool) (k : Kernel) (t : Table) (fuel : Nat) (name : String) :
    Option (ElementType × ElementType) :=
  match inferKernel .cLike (fuel + 1) complete k t with
  | .ok (k', t') =>
    match attempt (writtenType ⟨.cLike, k, k'.types, inferKernel .cLike fuel true⟩
        ⟨name, k.instructions.filter (name ∈ ·.writeNames)⟩) t' with
    | .ok (some type, _) => k'.types[name]?.map (·, type)
    | _ => none
  | .error _ => none

theorem exists_of_typesAfter {complete : Bool} {k : Kernel} {t : Table} {fuel : Nat}
    {name : String} {type type' : ElementType}
    (h : typesAfter complete k t fuel name = some (type, type')) :
    ∃ k' t' s, inferKernel .cLike (fuel + 1) complete k t = .ok (k', t') ∧
      k'.types[name]? = some type ∧
      attempt (writtenType ⟨.cLike, k, k'.types, inferKernel .cLike fuel true⟩
        ⟨name, k.instructions.filter (name ∈ ·.writeNames)⟩) t' = .ok (some type', s) := by
  unfold typesAfter at h
  split at h
  case h_1 k' t' hinfer =>
    split at h
    case h_1 _ found s hattempt =>
      obtain ⟨type, htype, heq⟩ := Option.map_eq_some_iff.1 h
      obtain ⟨rfl, rfl⟩ := Prod.mk.inj heq
      exact ⟨k', t', s, hinfer, htype, hattempt⟩
    case h_2 => cases h
  case h_2 => cases h

/-- Where a kernel reaches a name without an entry, the final table can give another type: the first
run of `g` leaves an `abs_0` behind that a second one finds at once. -/
theorem final_table_differs_earlyCaller :
    ∃ k' t' s, inferKernel .cLike 11 true earlyCaller earlyTable = .ok (k', t') ∧
      k'.types["v"]? = some .float64 ∧
      attempt (writtenType ⟨.cLike, earlyCaller, k'.types, inferKernel .cLike 10 true⟩
        ⟨"v", earlyCaller.instructions.filter ("v" ∈ ·.writeNames)⟩) t' =
          .ok (some .float32, s) := by
  have h : typesAfter true earlyCaller earlyTable 10 "v" = some (.float64, .float32) := by cbv
  exact exists_of_typesAfter h

end KernelTyping
