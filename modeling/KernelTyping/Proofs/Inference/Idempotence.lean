import KernelTyping.Proofs.Inference.Soundness
import KernelTyping.Proofs.Renaming.Unchanged
import KernelTyping.Proofs.Table.Pruning
import KernelTyping.Target.CLike

/-!
# KernelTyping.Proofs.Inference.Idempotence — inference on a typed kernel

A kernel whose variables all have types has no components: inference visits its instructions once,
for the calls in them (`inferWith_eq_ok_of_typed`).  So a second run gives the kernel and the
table of the first exactly if all calls resolve again, each to the entry that it refers to, and no
entry added on the way is referred to (`infer_again_iff`).  A call that keeps the specialization for
a wider type than it passes does not resolve again (`powKernel_overwritten`).
-/

namespace KernelTyping

open Evaluation

namespace Inference

/-! ### Typed kernels -/

section Typed

variable {k e : Kernel} {target : Target} {infer : Inference}

theorem untyped_of_checkVariablesTyped (h : k.checkVariablesTyped = .ok ()) : untyped k = [] := by
  refine List.filter_eq_nil_iff.2 fun v hv => ?_
  have hv : v ∈ k.declarations := by simpa [Kernel.declarations, or_comm] using hv
  simp [isKnown_of_checkVariablesTyped h hv]

theorem startEnv_of_typed (h : k.checkVariablesTyped = .ok ()) : startEnv k = ∅ := by
  rw [startEnv, untyped_of_checkVariablesTyped h]
  rfl

theorem checkVariablesTyped_of_expand (he : k.expand = .ok e)
    (h : k.checkVariablesTyped = .ok ()) : e.checkVariablesTyped = .ok () := by
  obtain ⟨is, -, rfl⟩ := Kernel.expand_eq_ok.1 he
  exact h

/-- The calls of a kernel, resolved where all of its variables have types. -/
def resolveAll (ctx : Context) (t : Table) : Outcome Progress :=
  (ctx.kernel.instructions.filter (!·.isDataOblivious)).foldlM (resolveCalls ctx) ⟨∅, t, .empty⟩

/-- Where all variables have types there is nothing to be found but the calls. -/
theorem inferExpanded_of_typed (ctx : Context) (h : ctx.kernel.checkVariablesTyped = .ok ())
    (complete : Bool) (fuel : Nat) (t : Table) :
    inferExpanded ctx complete fuel t = resolveAll ctx t := by
  have hnames : openNames ctx.kernel = [] := by
    rw [openNames, untyped_of_checkVariablesTyped h]
    rfl
  have hcomponents (d : Dependencies) : d.components [] = [] := rfl
  simp only [inferExpanded, hnames, hcomponents, List.foldlM_nil, startEnv_of_typed h]
  rfl

/-- No type is filled in where all variables have types. -/
theorem env_of_resolveAll {ctx : Context} {t : Table} {p : Progress}
    (h : resolveAll ctx t = .ok p) : p.env = ∅ := by
  have hsteps : Steps ctx [] ⟨∅, t, .empty⟩ p :=
    steps_of_foldlM_resolveCalls (List.filter_subset_self _) h
  exact hsteps.env_eq_of_nil

/-- The recorded calls are calls in expanded form, and what is added to the table are
specializations. -/
theorem grows_of_resolveAll {ctx : Context} {t : Table} {p : Progress}
    (he : k.expand = .ok ctx.kernel) (htyped : ctx.kernel.checkVariablesTyped = .ok ())
    (hgrows : GrowsTable ctx.infer) (ht : t.isEditing = true) (h : resolveAll ctx t = .ok p) :
    t.Grows p.table ∧ p.renames.Normal k.rules := by
  have hp : inferExpanded ctx true 0 t = .ok p :=
    (inferExpanded_of_typed ctx htyped true 0 t).trans h
  exact ⟨((steps_of_inferExpanded hp).grows hgrows (.start ht _)).1,
    normal_of_inferExpanded ctx hgrows he ht hp⟩

/-- Where all variables have types and all calls have entries, inference leaves a kernel as it is
if its calls, once resolved, are renamed to what they are. -/
theorem inferWith_eq_ok_of_typed (he : k.expand = .ok e) (htyped : k.checkVariablesTyped = .ok ())
    {t u : Table} (hresolved : k.checkFunctionsResolved t = .ok ()) (ht : t.isEditing = true)
    (hgrows : GrowsTable infer) {fuel : Nat} :
    inferWith target infer true fuel k t = .ok (k, u) ↔
      ∃ p, resolveAll ⟨target, e, ∅, infer⟩ t = .ok p ∧ k.rename p.renames = .ok k ∧
        p.table = u := by
  have hetyped := checkVariablesTyped_of_expand he htyped
  have hexpanded := inferExpanded_of_typed ⟨target, e, ∅, infer⟩ hetyped true fuel t
  rw [← startEnv_of_typed hetyped] at hexpanded ⊢
  rw [inferWith_eq_ok]
  constructor
  · rintro ⟨-, e', p, he', hp, hfinish⟩
    obtain rfl := Except.ok.inj (he.symm.trans he')
    rw [hexpanded] at hp
    obtain ⟨hrename, rfl, -⟩ := finishKernel_eq_ok.1 hfinish
    rw [env_of_resolveAll hp] at hrename
    exact ⟨p, hp, hrename, rfl⟩
  · rintro ⟨p, hp, hrename, rfl⟩
    refine ⟨ht, e, p, he, hexpanded.trans hp, finishKernel_eq_ok.2 ⟨?_, rfl, fun _ => ⟨?_, htyped⟩⟩⟩
    · rw [env_of_resolveAll hp]
      exact hrename
    · exact Kernel.checkFunctionsResolved_grows hresolved
        (grows_of_resolveAll he hetyped hgrows ht hp).1

end Typed

end Inference

open Inference

variable {target : Target} {fuel : Nat} {complete : Bool} {k k' : Kernel} {t t' : Table}

/-- Inference outside of transactions opens one of its own, and drops what nothing refers to. -/
theorem infer_eq_ok (ht : t.depth = 0) :
    infer target fuel complete k t = .ok (k', t') ↔
      ∃ u, inferKernel target fuel complete k t.beginEdit.1 = .ok (k', u) ∧
        (u.retainReachable k'.calledEntries.toList).commitEdit t.beginEdit.2 = .ok t' := by
  rw [infer_eq_ok_iff, Table.isOutermost_beginEdit ht]
  simp only [if_true]

/-- A table is idle after inference outside of transactions, and the kernel is complete in it. -/
theorem complete_of_infer (ht : t.depth = 0)
    (h : infer target fuel true k t = .ok (k', t')) :
    t'.Idle ∧ k'.checkVariablesTyped = .ok () ∧ k'.checkFunctionsResolved t' = .ok () := by
  obtain ⟨u, hu, hcommit⟩ := (infer_eq_ok ht).1 h
  cases fuel with
  | zero => cases hu
  | succ fuel =>
    rw [Table.commitEdit_retainReachable ht (inferKernel_grows target (fuel + 1) true hu)]
      at hcommit
    obtain rfl := Except.ok.inj hcommit
    obtain ⟨-, e, p, -, -, hfinish⟩ := inferWith_eq_ok.1 hu
    obtain ⟨-, rfl, hchecks⟩ := finishKernel_eq_ok.1 hfinish
    obtain ⟨hresolved, htyped⟩ := hchecks rfl
    refine ⟨⟨rfl, rfl, rfl⟩, htyped, ?_⟩
    -- the entries that the kernel calls are roots of what is kept
    obtain ⟨e', he', hcalls⟩ := Kernel.checkFunctionsResolved_eq_ok.1 hresolved
    refine Kernel.checkFunctionsResolved_eq_ok.2 ⟨e', he', fun i hi x hx call hcall => ?_⟩
    obtain ⟨name, hname, hcontains⟩ := hcalls i hi x hx call hcall
    have hroot : name ∈ k'.calledEntries.toList :=
      Std.ExtTreeSet.mem_toList.2
        (Kernel.entries_of_expand he' hi hx ⟨call, (Expr.mem_calls.1 hcall).1, hname⟩)
    exact ⟨name, hname, Table.contains_retainReachable hroot hcontains⟩

/-- The calls of a typed kernel `k`, which expands to `e`, resolve to the entries that they refer to
already, and nothing refers to an entry that is added to the table `t` on the way. -/
structure Settles (k e : Kernel) (t : Table) (p : Progress) : Prop where
  folded : ∀ i ∈ k.instructions, ∀ x ∈ i.expressions, ¬x.Unfolds k.rules p.renames
  kept : ∀ i ∈ e.instructions, ∀ x ∈ i.expressions, x.Keeps p.renames
  unused : ∀ name, t.Referred k.calledEntries.toList name → p.table.contains name = true →
    t.contains name = true

/-- Inference leaves a kernel that is complete in an idle table as it is, and the table too, exactly
if its calls resolve to what they refer to. -/
theorem infer_eq_self_iff {e : Kernel} (hidle : t.Idle) (htyped : k.checkVariablesTyped = .ok ())
    (hresolved : k.checkFunctionsResolved t = .ok ()) (he : k.expand = .ok e) :
    infer target (fuel + 1) true k t = .ok (k, t) ↔
      ∃ p, resolveAll ⟨target, e, ∅, inferKernel target fuel true⟩ t.beginEdit.1 = .ok p ∧
        Settles k e t p := by
  have hgrows := inferKernel_grows target fuel true
  have hedit : t.beginEdit.1.isEditing = true := by simp [Table.isEditing, Table.beginEdit]
  have hresolved : k.checkFunctionsResolved t.beginEdit.1 = .ok () := hresolved
  have hetyped := checkVariablesTyped_of_expand he htyped
  have hagain (u : Table) : inferKernel target (fuel + 1) true k t.beginEdit.1 = .ok (k, u) ↔
      ∃ p, resolveAll ⟨target, e, ∅, inferKernel target fuel true⟩ t.beginEdit.1 = .ok p ∧
        k.rename p.renames = .ok k ∧ p.table = u :=
    inferWith_eq_ok_of_typed he htyped hresolved hedit hgrows
  rw [infer_eq_ok hidle.depth]
  constructor
  · rintro ⟨u, hu, hcommit⟩
    obtain ⟨p, hp, hrename, rfl⟩ := (hagain u).1 hu
    obtain ⟨hpgrows, hnormal⟩ := grows_of_resolveAll he hetyped hgrows hedit hp
    obtain ⟨hfolded, hkept⟩ := (Kernel.rename_eq_self_iff hnormal he).1 hrename
    exact ⟨p, hp, hfolded, hkept, (Table.commitEdit_retainReachable_iff hidle hpgrows).1 hcommit⟩
  · rintro ⟨p, hp, hfolded, hkept, hunused⟩
    obtain ⟨hpgrows, hnormal⟩ := grows_of_resolveAll he hetyped hgrows hedit hp
    have hrename := (Kernel.rename_eq_self_iff hnormal he).2 ⟨hfolded, hkept⟩
    exact ⟨p.table, (hagain p.table).2 ⟨p, hp, hrename, rfl⟩,
      (Table.commitEdit_retainReachable_iff hidle hpgrows).2 hunused⟩

/-- **When inference is idempotent.**  Outside of transactions, once inference has succeeded with
all types expected, a second run on the typed kernel and the table that is left gives these again
exactly if every instruction can be visited once more, each call that is recorded then keeps its
entry, no invocation of a rule has a recorded call in its expansion, and nothing refers to an entry
that is added on the way. -/
theorem infer_again_iff (fuel' : Nat) (ht : t.isEditing = false)
    (h : infer target fuel true k t = .ok (k', t')) :
    ∃ e, k'.expand = .ok e ∧
      (infer target (fuel' + 1) true k' t' = .ok (k', t') ↔
        ∃ p, resolveAll ⟨target, e, ∅, inferKernel target fuel' true⟩ t'.beginEdit.1 = .ok p ∧
          Settles k' e t' p) := by
  have hdepth : t.depth = 0 := by simpa [Table.isEditing] using ht
  obtain ⟨hidle, htyped, hresolved⟩ := complete_of_infer hdepth h
  obtain ⟨e, he, -⟩ := Kernel.checkFunctionsResolved_eq_ok.1 hresolved
  exact ⟨e, he, infer_eq_self_iff hidle htyped hresolved he⟩

/-- The library with the specialization that the call of `cyclicKernel` needs. -/
def absDone : Table := (absTable.addFresh "abs" absSingle).closed

theorem infer_cyclicKernel :
    infer .cLike 8 true cyclicKernel absLibrary = .ok (typedCyclic, absDone) :=
  infer_of_pending_called rfl inferKernel_cyclicKernel (by cbv)

theorem infer_typedCyclic : infer .cLike 8 true typedCyclic absDone = .ok (typedCyclic, absDone) := by
  have h : inferKernel .cLike 8 true typedCyclic absDone.beginEdit.1 =
      .ok (typedCyclic, absDone.beginEdit.1) := by cbv
  have hinfer := infer_of_pending_called rfl h (by cbv)
  exact hinfer

theorem infer_again_iff_cyclicKernel :
    ∃ k' t' e p, infer .cLike 8 true cyclicKernel absLibrary = .ok (k', t') ∧
      k'.expand = .ok e ∧
      resolveAll ⟨.cLike, e, ∅, inferKernel .cLike 7 true⟩ t'.beginEdit.1 = .ok p ∧
      Settles k' e t' p := by
  obtain ⟨e, he, hiff⟩ := infer_again_iff 7 rfl infer_cyclicKernel
  obtain ⟨p, hp, hsettles⟩ := hiff.1 infer_typedCyclic
  exact ⟨_, _, e, p, infer_cyclicKernel, he, hp, hsettles⟩

/-- A kernel that raises a number to an integer power. -/
def powKernel : Kernel := { Kernel.empty "k" with
  args := [⟨"x", .known .float32, .input⟩, ⟨"n", .known .int32, .input⟩, ⟨"y", .unknown, .output⟩]
  instructions := [⟨"y", .assign (.var "y") (.call (.entry "pow") [.var "x", .var "n"] [])⟩] }

def powTable : Table := Table.empty.insert "pow" (.ofBuiltin .pow)

/-- The kernel with the types that are found for it. -/
def typedPow : Kernel := { Kernel.empty "k" with
  args := [⟨"x", .known .float32, .input⟩, ⟨"n", .known .int32, .input⟩,
    ⟨"y", .known .float32, .output⟩]
  instructions := [⟨"y", .assign (.var "y") (.call (.entry "pow_0") [.var "x", .var "n"] [])⟩] }

/-- The builtin for two single precision numbers. -/
def powSingle : Callable :=
  { Callable.ofBuiltin .pow with signature := some (.ofLists [.float32, .float32] [.float32]) }

def powDone : Table := (powTable.beginEdit.1.addFresh "pow" powSingle).closed

theorem infer_powKernel : infer .cLike 8 true powKernel powTable = .ok (typedPow, powDone) := by
  have h : inferKernel .cLike 8 true powKernel powTable.beginEdit.1 =
      .ok (typedPow, powTable.beginEdit.1.addFresh "pow" powSingle) := by cbv
  exact infer_of_pending_called rfl h (by cbv)

/-- Inference need not be idempotent: `pow` is recorded for two single precision numbers, and the
integer that the same call passes is refused from then on. -/
theorem powKernel_overwritten :
    ∃ k' t', infer .cLike 8 true powKernel powTable = .ok (k', t') ∧
      ∀ fuel, infer .cLike (fuel + 1) true k' t' =
        .error (.fault (.overwritten (.input 1) .float32 .int32)) := by
  refine ⟨typedPow, powDone, infer_powKernel, fun fuel => infer_eq_error_of_inferKernel ?_⟩
  cbv

end KernelTyping
