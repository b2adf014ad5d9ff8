import KernelTyping.Proofs.Inference.Transparency

/-!
# KernelTyping.Proofs.Inference.Preservation — inference leaves the program as it is

Inference fills in types and points calls at entries of the table, and that is all.  Erasing callees
undoes any renaming (`eraseCallees_renameCalls`), so the typed kernel and the kernel have the same
instructions once both are expanded and their callees erased.  Variables keep their places, names
and roles, and the types they had; everything else in the kernel is untouched
(`program_preserved`).
-/

namespace KernelTyping

open Evaluation

/-! ### Erased callees -/

namespace Expr

variable {e : Expr}

/-- The expression with one and the same callee at all of its calls. -/
def eraseCallees (e : Expr) : Expr := e.rebuild (withCallee (.bare ""))

theorem eraseCallees_eq (e : Expr) :
    e.eraseCallees = (e.mapChildren eraseCallees).withCallee (.bare "") :=
  rebuild_eq _ e

theorem withCallee_pointTo (name? : Option String) (callee : Callee) (e : Expr) :
    (e.pointTo name?).withCallee callee = e.withCallee callee := by
  cases name? with
  | none => rfl
  | some name => cases e <;> rfl

/-- Nothing of a renaming is left once callees are erased. -/
theorem eraseCallees_renameCalls (m : Renames) (e : Expr) :
    (e.renameCalls m).eraseCallees = e.eraseCallees := by
  induction e using inductionOnChildren with
  | step e ih =>
    have hchildren : (e.renameCalls m).children.map eraseCallees = e.children.map eraseCallees := by
      rw [children_renameCalls, List.map_map]
      exact List.map_congr_left ih
    rw [eraseCallees_eq, eraseCallees_eq e, mapChildren, mapChildren, hchildren, renameCalls_eq,
      withChildren_pointTo, withCallee_pointTo, mapChildren,
      withChildren_withChildren (List.length_map _) (List.length_map _)]

end Expr

/-- The instructions of a kernel with their callees erased. -/
def Kernel.skeleton (k : Kernel) : List Instruction :=
  k.instructions.map (·.mapExpressions Expr.eraseCallees)

/-- The variable is as it was, or it had no type and has one now. -/
def Variable.TypedAs (v w : Variable) : Prop :=
  w = v ∨ v.dtype.isKnown = false ∧ ∃ type, w = { v with dtype := .known type }

namespace Inference

variable {target : Target} {fuel : Nat} {complete : Bool} {k k' e : Kernel} {t t' : Table}

/-- A name for which a type was found is that of a variable without a type. -/
theorem isKnown_eq_false_of_env (hnames : (k.declarations.map (·.name)).Nodup)
    (he : k.expand = .ok e) {infer : Inference} {p : Progress}
    (hp : inferExpanded ⟨target, e, startEnv e, infer⟩ complete fuel t = .ok p) {v : Variable}
    (hv : v ∈ k.declarations) {type : ElementType} (htype : p.env[v.name]? = some type) :
    v.dtype.isKnown = false := by
  by_contra hknown
  rw [Bool.not_eq_false] at hknown
  have hnone : p.env[v.name]? = none := by
    refine env_eq_none_of_steps (steps_of_inferExpanded hp) rfl fun hmem => ?_
    obtain ⟨w, hw, hname⟩ := List.mem_map.1 hmem
    obtain ⟨hw, hopen⟩ := List.mem_filter.1 hw
    have hw : w ∈ k.declarations := by
      rw [← Kernel.declarations_of_expand he]
      simpa [Kernel.declarations, or_comm] using hw
    obtain rfl : w = v := List.inj_on_of_nodup_map hnames hw hv hname
    simp [hknown] at hopen
  rw [hnone] at htype
  cases htype

theorem program_of_inferKernel (hnames : (k.declarations.map (·.name)).Nodup)
    (h : inferKernel target fuel complete k t = .ok (k', t')) :
    k' = { k with
      args := k'.args, temporaries := k'.temporaries, instructions := k'.instructions } ∧
    List.Forall₂ Variable.TypedAs k.args k'.args ∧
    List.Forall₂ Variable.TypedAs k.temporaries k'.temporaries ∧
    ∃ e e', k.expand = .ok e ∧ k'.expand = .ok e' ∧ e'.skeleton = e.skeleton := by
  cases fuel with
  | zero => cases h
  | succ fuel =>
    obtain ⟨ht, e, p, he, hp, hfinish⟩ := inferWith_eq_ok.1 h
    obtain ⟨hrename, -, -⟩ := finishKernel_eq_ok.1 hfinish
    have hnormal := normal_of_inferExpanded ⟨target, e, startEnv e, inferKernel target fuel true⟩
      (inferKernel_grows target fuel true) he ht hp
    obtain ⟨k'', hk'', hsame, hexpand⟩ := Kernel.rename_withTypes_spec hnormal he p.env.toList
    obtain rfl := Except.ok.inj (hk''.symm.trans hrename)
    have htyped {vs : List Variable} (hvs : vs ⊆ k.declarations) :
        List.Forall₂ Variable.TypedAs vs (vs.map fun v => v.retype p.env[v.name]?) := by
      rw [List.forall₂_map_right_iff]
      refine List.forall₂_same.2 fun v hv => ?_
      cases htype : p.env[v.name]? with
      | none => exact .inl rfl
      | some type =>
        exact .inr ⟨isKnown_eq_false_of_env hnames he hp (hvs hv) htype, type, rfl⟩
    have herase (i : Instruction) :
        (i.mapExpressions (Expr.renameCalls p.renames)).mapExpressions Expr.eraseCallees =
          i.mapExpressions Expr.eraseCallees := by
      simp only [Instruction.mapExpressions_mapExpressions, Expr.eraseCallees_renameCalls]
    rw [Kernel.withEnv_eq_map hnames] at hsame
    refine ⟨?_, ?_, ?_, e, _, he, hexpand, ?_⟩
    · rw [hsame]
    · rw [hsame]
      exact htyped fun v hv => List.mem_append_left _ hv
    · rw [hsame]
      exact htyped fun v hv => List.mem_append_right _ hv
    · show (e.instructions.map _).map _ = _
      rw [List.map_map]
      exact List.map_congr_left fun i _ => herase i

end Inference

open Inference

variable {target : Target} {fuel : Nat} {complete : Bool} {k k' : Kernel} {t t' : Table}

/-- **Inference preserves the program.**  The typed kernel is the kernel but for its variables and
instructions.  Its variables are the same, in the same order, and have the types that they had; the
instructions of its expansion are those of the expansion of the kernel, up to callees. -/
theorem program_preserved (hnames : (k.declarations.map (·.name)).Nodup)
    (h : infer target fuel complete k t = .ok (k', t')) :
    k' = { k with
      args := k'.args, temporaries := k'.temporaries, instructions := k'.instructions } ∧
    List.Forall₂ Variable.TypedAs k.args k'.args ∧
    List.Forall₂ Variable.TypedAs k.temporaries k'.temporaries ∧
    ∃ e e', k.expand = .ok e ∧ k'.expand = .ok e' ∧ e'.skeleton = e.skeleton := by
  obtain ⟨u, hu, -⟩ := infer_eq_ok_iff.1 h
  exact program_of_inferKernel hnames hu

theorem program_preserved_ruledKernel :
    ∃ k' t' e', infer .cLike 8 true ruledKernel absLibrary = .ok (k', t') ∧
      (ruledKernel.declarations.map (·.name)).Nodup ∧ k'.rules = ruledKernel.rules ∧
      List.Forall₂ Variable.TypedAs ruledKernel.args k'.args ∧
      List.Forall₂ Variable.TypedAs ruledKernel.temporaries k'.temporaries ∧
      k'.expand = .ok e' ∧ e'.skeleton = unruledKernel.skeleton := by
  have hnames : (ruledKernel.declarations.map (·.name)).Nodup := by decide
  obtain ⟨⟨k', u⟩, hu, -⟩ := map_eq_ok.1 instructions_ruledKernel
  obtain ⟨t', h⟩ := exists_infer_of_inferKernel (t := absLibrary) hu
  obtain ⟨hsame, hargs, htemporaries, e, e', he, he', hskeleton⟩ := program_preserved hnames h
  obtain rfl := Except.ok.inj (he.symm.trans expand_ruledKernel)
  have hrules : k'.rules = ruledKernel.rules := by rw [hsame]
  exact ⟨k', t', e', h, hnames, hrules, hargs, htemporaries, he', hskeleton⟩

end KernelTyping
