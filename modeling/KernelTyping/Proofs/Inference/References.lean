import KernelTyping.Proofs.Inference.Additions

/-!
# KernelTyping.Proofs.Inference.References — what refers to the entries of a table after inference

A call that inference rewrites refers to an entry that was recorded, and nothing else of an
expression changes (`repointed_rename`).  The kernels that inference puts into the table have passed
the check that all of their calls are resolved (`inferKernel_growsResolved`).  That check comes
before the table is pruned; but pruning follows every call that the check has looked at, so that no
reference is left without an entry, and keeps no new entry that nothing leads to
(`references_resolved`).
-/

namespace KernelTyping

open Evaluation

/-! ### Rewritten calls -/

namespace Expr

variable {rules : Rules} {m : Renames} {P : String → Prop} {e x y : Expr}

/-- The second expression is the first, with the expansions of some invocations in their place and
with calls of other entries.  The names of these entries have a property. -/
inductive Repointed (rules : Rules) (P : String → Prop) : Expr → Expr → Prop where
  | kept (e : Expr) : Repointed rules P e e
  | unfolded {e x y : Expr} {r : String × Rule} :
    e.invocation? rules = some r → e.expand rules = .ok x → Repointed rules P x y →
      Repointed rules P e y
  | node {e : Expr} {cs : List Expr} :
    List.Forall₂ (Repointed rules P) e.children cs → Repointed rules P e (e.withChildren cs)
  | call {e : Expr} {cs : List Expr} {name : String} :
    P name → List.Forall₂ (Repointed rules P) e.children cs →
      Repointed rules P e ((e.withChildren cs).withCallee (.entry name))

theorem callee?_pointTo {name : String} (h : e.isCall = true) :
    (e.pointTo (some name)).callee? = some (.entry name) := by
  cases e with
  | call callee args keywords => rfl
  | _ => cases h

/-- A node whose children are rewritten, with the name that it is pointed to. -/
theorem Repointed.pointTo {cs : List Expr} {name? : Option String}
    (hcs : List.Forall₂ (Repointed rules P) e.children cs)
    (hP : ∀ name, name? = some name → ((e.withChildren cs).pointTo name?).Mentions (.entry name) →
      P name) : Repointed rules P e ((e.withChildren cs).pointTo name?) := by
  cases name? with
  | none => exact .node hcs
  | some name =>
    by_cases hcall : (e.withChildren cs).isCall = true
    · exact .call (hP name rfl ⟨_, mem_subterms_self _, callee?_pointTo hcall⟩) hcs
    · have hsame : (e.withChildren cs).pointTo (some name) = e.withChildren cs := by
        generalize e.withChildren cs = d at hcall ⊢
        cases d with
        | call callee args keywords => exact absurd rfl hcall
        | _ => rfl
      rw [hsame]
      exact .node hcs

/-- To point recorded calls to their new names rewrites an expression. -/
theorem repointed_renameCalls
    (hP : ∀ call name, m.get? call = some name → (x.renameCalls m).Mentions (.entry name) →
      P name) : Repointed rules P x (x.renameCalls m) := by
  induction x using inductionOnChildren with
  | step x ih =>
    have hchildren : List.Forall₂ (Repointed rules P) x.children
        (x.children.map (renameCalls m)) := by
      rw [List.forall₂_map_right_iff, List.forall₂_same]
      refine fun c hc => ih c hc fun call name hname hmentions => hP call name hname ?_
      refine hmentions.of_mem_children ?_
      rw [children_renameCalls]
      exact List.mem_map_of_mem hc
    rw [renameCalls_eq, mapChildren] at hP ⊢
    exact .pointTo hchildren fun name => hP x name

/-- What is renamed is rewritten: each new name is one that is recorded. -/
theorem repointed_rename (h : e.rename rules m = .ok y)
    (hP : ∀ call name, m.get? call = some name → y.Mentions (.entry name) → P name) :
    Repointed rules P e y := by
  induction e using inductionOnChildren generalizing y with
  | step e ih =>
    cases hinvocation : e.invocation? rules with
    | some r =>
      rw [rename_of_invocation hinvocation] at h
      obtain ⟨x, hx, rfl⟩ := map_eq_ok.1 h
      by_cases hrecorded : x.calls.any m.contains
      · rw [if_pos hrecorded] at hP ⊢
        exact .unfolded hinvocation hx (repointed_renameCalls hP)
      · rw [if_neg hrecorded]
        exact .kept e
    | none =>
      rw [rename_of_not_invocation hinvocation] at h
      obtain ⟨name?, hname, h⟩ := bind_eq_ok.1 h
      obtain ⟨z, hz, rfl⟩ := map_eq_ok.1 h
      obtain ⟨cs, hcs, hz⟩ := bind_eq_ok.1 hz
      obtain rfl := Except.ok.inj hz
      have hcs := mapM_eq_ok.1 hcs
      have hchildren : ((e.withChildren cs).pointTo name?).children = cs := by
        rw [children_pointTo, children_withChildren hcs.length_eq.symm]
      refine .pointTo (forall₂_imp_of_mem hcs fun c hc c' hc' hrename => ?_) ?_
      · refine ih c hc hrename fun call name hcall hmentions => hP call name hcall ?_
        exact hmentions.of_mem_children (hchildren.symm ▸ hc')
      · rintro name rfl hmentions
        obtain ⟨call, hcall⟩ := exists_get?_of_newName? hname
        exact hP call name hcall hmentions

end Expr

/-- The instructions of a kernel, with calls that are rewritten to names with a property. -/
theorem Kernel.repointed_rename {k k' : Kernel} {m : Renames} {P : String → Prop}
    (h : k.rename m = .ok k')
    (hP : ∀ call name, m.get? call = some name → name ∈ k'.calledEntries → P name) :
    List.Forall₂ (Instruction.Maps (Expr.Repointed k.rules P)) k.instructions k'.instructions := by
  unfold Kernel.rename at h
  split at h
  · obtain rfl := Except.ok.inj h
    exact List.forall₂_same.2 fun i _ => .refl .kept i
  · obtain ⟨is, his, h⟩ := bind_eq_ok.1 h
    obtain rfl := Except.ok.inj h
    refine forall₂_imp_of_mem (mapM_eq_ok.1 his) fun i _ j hj hij => ?_
    refine (Instruction.mapExpressionsM_eq_ok.1 hij).imp_of_mem fun x _ y hy hxy => ?_
    refine Expr.repointed_rename hxy fun call name hcall hmentions => hP call name hcall ?_
    exact Kernel.mem_calledEntries.2 (.inl ⟨j, hj, y, hy, hmentions⟩)

/-! ### Resolved kernels -/

/-- Every call in the expansion of the kernel refers to an entry of the table. -/
def Kernel.Resolved (k : Kernel) (t : Table) : Prop :=
  ∃ e, k.expand = .ok e ∧ ∀ i ∈ e.instructions, ∀ x ∈ i.expressions, ∀ call ∈ x.calls,
    ∃ name, call.callee? = some (.entry name) ∧ t.contains name = true

variable {k k' : Kernel} {t t' u v : Table}

theorem Kernel.Resolved.grows (h : k.Resolved t) (hgrows : t.Grows u) : k.Resolved u :=
  checkFunctionsResolved_eq_ok.1 (checkFunctionsResolved_grows (checkFunctionsResolved_eq_ok.2 h)
    hgrows)

/-- A kernel stays resolved in every table that has the entries it calls. -/
theorem Kernel.Resolved.of_calledEntries (h : k.Resolved u)
    (hv : ∀ name ∈ k.calledEntries, u.contains name = true → v.contains name = true) :
    k.Resolved v := by
  obtain ⟨e, he, h⟩ := h
  refine ⟨e, he, fun i hi x hx call hcall => ?_⟩
  obtain ⟨name, hname, hcontains⟩ := h i hi x hx call hcall
  have hmentions : x.Mentions (.entry name) := ⟨call, (Expr.mem_calls.1 hcall).1, hname⟩
  exact ⟨name, hname, hv name (Kernel.entries_of_expand he hi hx hmentions) hcontains⟩

/-- The second table comes from the first by storing callables, whose kernels are resolved. -/
structure Table.GrowsResolved (t u : Table) : Prop where
  grows : t.Grows u
  resolved {name : String} {c : Callable} {k : Kernel} :
    u.get? name = some c → t.contains name = false → c.kernel? = some k → k.Resolved u

namespace Table.GrowsResolved

theorem refl (t : Table) : GrowsResolved t t where
  grows := .refl t
  resolved {name c k} hname hnew := by
    rw [contains_eq_isSome, hname] at hnew
    cases hnew

theorem trans (htu : GrowsResolved t u) (huv : GrowsResolved u v) : GrowsResolved t v where
  grows := htu.grows.trans huv.grows
  resolved {name c k} hname hnew hkernel := by
    cases hu : u.get? name with
    | some d =>
      obtain rfl := Option.some.inj ((huv.grows.get? hu).symm.trans hname)
      exact (htu.resolved hu hnew hkernel).grows huv.grows
    | none => exact huv.resolved hname (by rw [contains_eq_isSome, hu]; rfl) hkernel

/-- A callable that is put is found, or new and resolved. -/
theorem put {c : Callable} (h : t.isEditing = true) (base : String)
    (hc : (∃ name, t.get? name = some c) ∨ ∀ k, c.kernel? = some k → k.Resolved t) :
    GrowsResolved t (t.put base c).1 := by
  cases hname : t.nameOf? c with
  | some name =>
    rw [put_of_nameOf? hname]
    exact .refl t
  | none =>
    have hresolved := hc.resolve_left fun ⟨name, hfound⟩ => nameOf?_eq_none.1 hname name hfound
    have hgrows : t.Grows (t.put base c).1 := .put h base c
    refine ⟨hgrows, fun {other d k} hother hnew hkernel => ?_⟩
    have hput : (t.put base c).1 = t.addFresh base c := by rw [Table.put, hname]
    rw [hput, get?_addFresh] at hother
    split at hother
    · obtain rfl := Option.some.inj hother
      exact (hresolved k hkernel).grows hgrows
    · rw [contains_eq_isSome, hother] at hnew
      cases hnew

end Table.GrowsResolved

namespace Evaluation

/-- A specialization is the callable that it was, or has no kernel that is not resolved. -/
theorem resolved_of_specialize {target : Target} {infer : Inference}
    (hinfer : ∀ ⦃k t k' t'⦄, infer k t = .ok (k', t') → k'.Resolved t') {caller : Kernel}
    {c c' : Callable} {incoming : Incoming}
    (h : c.specialize target infer caller incoming t = .ok (c', u)) :
    c' = c ∨ ∀ k, c'.kernel? = some k → k.Resolved u := by
  rcases specialize_cases h with ⟨-, hc⟩ | ⟨_, _, typed, -, -, hinferred, hkernel⟩
  · exact hc.imp_right fun hnone k hk => by rw [hnone] at hk; cases hk
  · refine .inr fun k hk => ?_
    obtain rfl := Option.some.inj (hkernel.symm.trans hk)
    exact hinfer hinferred

variable {ctx : Context}

/-- The callable of an answer is in the table already, or has no kernel that is not resolved. -/
theorem resolved_of_answer (hgrows : GrowsTable ctx.infer)
    (hinfer : ∀ ⦃k t k' t'⦄, ctx.infer k t = .ok (k', t') → k'.Resolved t')
    {callee : Callee} {args : List Expr} {keywords : List (String × Expr)}
    {types : List (Option ElementType)} {c : Callable} {results : List ElementType}
    (h : answer ctx callee args keywords types t = .ok (some (c, results), u)) :
    (∃ name, u.get? name = some c) ∨ ∀ k, c.kernel? = some k → k.Resolved u := by
  have htu : t.Grows u := answer_grows hgrows h
  unfold answer at h
  cases callee with
  | entry name =>
    obtain ⟨⟨specialized, table⟩, hspecialized, h⟩ := bind_eq_ok.1 h
    obtain ⟨hfound, rfl⟩ := Prod.mk.inj (Except.ok.inj h)
    obtain ⟨results, -, hpair⟩ := Option.map_eq_some_iff.1 hfound
    obtain ⟨rfl, -⟩ := Prod.mk.inj hpair
    unfold specializeEntry at hspecialized
    cases hname : t.get? name with
    | none =>
      rw [hname] at hspecialized
      cases hspecialized
    | some callable =>
      rw [hname] at hspecialized
      obtain ⟨_, -, hspecialized⟩ := bind_eq_ok.1 hspecialized
      rcases resolved_of_specialize hinfer hspecialized with rfl | hresolved
      · exact .inl ⟨name, htu.get? hname⟩
      · exact .inr hresolved
  | bare name =>
    obtain ⟨hfound, -⟩ := Prod.mk.inj (Except.ok.inj h)
    obtain ⟨_, -, hpair⟩ := Option.map_eq_some_iff.1 hfound
    obtain ⟨rfl, -⟩ := Prod.mk.inj hpair
    exact .inr nofun

end Evaluation

open Inference

variable {target : Target} {fuel : Nat} {complete : Bool}

/-- A kernel that is typed completely is resolved. -/
theorem resolved_of_inferKernel (h : inferKernel target fuel true k t = .ok (k', t')) :
    k'.Resolved t' := by
  cases fuel with
  | zero => cases h
  | succ fuel =>
    obtain ⟨-, e, p, -, -, hfinish⟩ := inferWith_eq_ok.1 h
    obtain ⟨-, rfl, hcomplete⟩ := finishKernel_eq_ok.1 hfinish
    exact Kernel.checkFunctionsResolved_eq_ok.1 (hcomplete rfl).1

/-- Inference on a kernel puts only resolved kernels into the table. -/
theorem inferKernel_growsResolved (h : inferKernel target fuel complete k t = .ok (k', t')) :
    t.GrowsResolved t' := by
  induction fuel generalizing complete k k' t t' with
  | zero => cases h
  | succ fuel ih =>
    refine inferWith_additive (fun e => ?_) h
    have hgrows : GrowsTable (inferKernel target fuel true) := inferKernel_grows target fuel true
    exact {
      grows := Table.GrowsResolved.grows
      refl := .refl
      trans := .trans
      infer := ih
      put := fun {callee args keywords types t u c results} hedit hanswer =>
        .put ((answer_grows hgrows hanswer).isEditing_eq.trans hedit) c.name
          (resolved_of_answer hgrows (fun _ _ _ _ => resolved_of_inferKernel) hanswer) }

/-- Inference rewrites calls of a kernel to entries that it has recorded. -/
theorem repointed_of_inferKernel {P : String → Prop}
    (h : inferKernel target fuel complete k t = .ok (k', t'))
    (hP : ∀ name ∈ k'.calledEntries, t'.contains name = true → P name) :
    List.Forall₂ (Instruction.Maps (Expr.Repointed k.rules P)) k.instructions k'.instructions := by
  cases fuel with
  | zero => cases h
  | succ fuel =>
    obtain ⟨hedit, e, p, -, hp, hfinish⟩ := inferWith_eq_ok.1 h
    obtain ⟨hrename, rfl, -⟩ := finishKernel_eq_ok.1 hfinish
    have hsound : p.Sound := ((steps_of_inferExpanded hp).grows (inferKernel_grows target fuel true)
      (.start hedit _)).2
    have hrepointed := Kernel.repointed_rename hrename fun call name hcall hcalled =>
      hP name hcalled (hsound.entry hcall)
    rwa [Kernel.rules_withTypes, Kernel.instructions_withTypes] at hrepointed

/-- **No dangling references and no garbage.**  Outside of transactions, inference rewrites calls of
the kernel to entries that are in the table at the end.  Where all types are expected, every call in
the expansion of the typed kernel refers to an entry; and every call in the expansion of a kernel
that inference has put into the table does so in either mode.  Each new entry can be reached, from
one entry to those that its kernel calls, from an entry that the typed kernel calls or from one that
was there before. -/
theorem references_resolved (ht : t.Built) (hidle : t.isEditing = false)
    (h : infer target fuel complete k t = .ok (k', t')) :
    List.Forall₂ (Instruction.Maps (Expr.Repointed k.rules fun name => t'.contains name = true))
        k.instructions k'.instructions ∧
      (complete = true → k'.Resolved t') ∧
      (∀ name c callee, t'.get? name = some c → t.contains name = false →
        c.kernel? = some callee → callee.Resolved t') ∧
      ∀ name, t'.contains name = true → t.contains name = false →
        ∃ start, (start ∈ k'.calledEntries ∨ t.contains start = true) ∧
          DepthFirst.Reaches t'.callees start name := by
  obtain ⟨u, hu, hcommit⟩ := infer_eq_ok_iff.1 h
  have hdepth : t.depth = 0 := by simpa [Table.isEditing] using hidle
  rw [Table.isOutermost_beginEdit hdepth, if_pos rfl] at hcommit
  have hresolved : t.beginEdit.1.GrowsResolved u := inferKernel_growsResolved hu
  have hgrows := hresolved.grows
  -- what a reached entry or the typed kernel calls is reached, so that pruning keeps it
  have hkept {name : String} (hreached : name ∈ u.reachable k'.calledEntries.toList)
      (hname : u.contains name = true) : t'.contains name = true :=
    Table.contains_of_reachable ht hdepth hgrows hcommit hreached hname
  have hcalled (name : String) (hname : name ∈ k'.calledEntries) (hu : u.contains name = true) :
      t'.contains name = true :=
    hkept (Table.mem_reachable.2
      ⟨name, .inl (Std.ExtTreeSet.mem_toList.2 hname), .refl⟩) hu
  refine ⟨repointed_of_inferKernel hu hcalled, fun hcomplete => ?_, fun name c callee hname hnew
    hkernel => ?_, fun name hname hnew => ?_⟩
  · subst hcomplete
    exact (resolved_of_inferKernel hu).of_calledEntries hcalled
  · have hcontains : t'.contains name = true := by
      rw [Table.contains_eq_isSome, hname]
      rfl
    have hreached := Table.mem_reachable_of_commitEdit ht hdepth hgrows hcommit hcontains hnew
    have hname' : u.get? name = some c :=
      (Table.get?_of_commitEdit ht hdepth hgrows hcommit (.inr hreached)).symm.trans hname
    refine (hresolved.resolved hname' hnew hkernel).of_calledEntries fun other hother hu => ?_
    obtain ⟨start, hstart, hpath⟩ := Table.mem_reachable.1 hreached
    refine hkept (Table.mem_reachable.2 ⟨start, hstart, hpath.tail ?_⟩) hu
    simpa [Table.callees, hname', Callable.callees, hkernel] using hother
  · obtain ⟨start, hstart, hpath⟩ :=
      Table.exists_reaches_of_commitEdit ht hdepth hgrows hcommit hname hnew
    exact ⟨start, hstart.imp_left Std.ExtTreeSet.mem_toList.1, hpath⟩

/-- A kernel that copies its input. -/
def copyKernel : Kernel := { Kernel.empty "copy" with
  args := [⟨"x", .unknown, .input⟩, ⟨"y", .unknown, .output⟩]
  instructions := [⟨"y", .assign (.var "y") (.var "x")⟩] }

/-- A kernel that calls the other one. -/
def copyCaller : Kernel := { Kernel.empty "caller" with
  args := [⟨"x", .known .float32, .input⟩, ⟨"y", .known .float32, .output⟩]
  instructions := [⟨"y", .assign (.var "y") (.call (.entry "copy") [.var "x"] [])⟩] }

def copyTable : Table := Table.empty.insert "copy" (.ofKernel copyKernel)

/-- The kernel of an entry. -/
def Table.kernel? (t : Table) (name : String) : Option Kernel := (t.get? name).bind (·.kernel?)

/-- All that is stored is called, and so survives the pruning. -/
theorem exists_infer_copyCaller : ∃ k' t' callee,
    infer .cLike 8 true copyCaller copyTable = .ok (k', t') ∧
      t'.kernel? "copy_0" = some callee := by
  have hrun : (inferKernel .cLike 8 true copyCaller copyTable.beginEdit.1).map (fun r =>
      (r.2.pending.all r.1.calledEntries.contains, (r.2.kernel? "copy_0").isSome)) =
        .ok (true, true) := by cbv
  obtain ⟨⟨k', u⟩, h, hrun⟩ := map_eq_ok.1 hrun
  obtain ⟨hcalled, hsome⟩ := Prod.mk.inj hrun
  obtain ⟨callee, hcallee⟩ := Option.isSome_iff_exists.1 hsome
  exact ⟨k', u.closed, callee, infer_of_pending_called rfl h hcalled, hcallee⟩

theorem references_resolved_copyCaller :
    copyTable.Built ∧ copyTable.isEditing = false ∧ ∃ k' t' callee,
      infer .cLike 8 true copyCaller copyTable = .ok (k', t') ∧ k'.Resolved t' ∧
        t'.kernel? "copy_0" = some callee ∧ copyTable.contains "copy_0" = false ∧
        callee.Resolved t' ∧
        ∃ start, (start ∈ k'.calledEntries ∨ copyTable.contains start = true) ∧
          DepthFirst.Reaches t'.callees start "copy_0" := by
  have hbuilt : copyTable.Built := .insert _ _ .empty
  have hnew : copyTable.contains "copy_0" = false := by
    rw [Table.contains_eq_isSome, copyTable, Table.get?_insert]
    rfl
  obtain ⟨k', t', callee, h, hcallee⟩ := exists_infer_copyCaller
  obtain ⟨c, hc, hkernel⟩ := Option.bind_eq_some_iff.1 hcallee
  have hcontains : t'.contains "copy_0" = true := by
    rw [Table.contains_eq_isSome, hc]
    rfl
  obtain ⟨-, hresolved, hnested, hreached⟩ := references_resolved hbuilt rfl h
  exact ⟨hbuilt, rfl, k', t', callee, h, hresolved rfl, hcallee, hnew,
    hnested "copy_0" c callee hc hnew hkernel, hreached "copy_0" hcontains hnew⟩

end KernelTyping
