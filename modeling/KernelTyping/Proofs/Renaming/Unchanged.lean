import KernelTyping.Proofs.Renaming

/-!
# KernelTyping.Proofs.Renaming.Unchanged — renaming that changes nothing

A kernel is left as it is by its renames exactly if no invocation of a rule has a recorded call in
its expansion and every recorded call refers to its new name already
(`Kernel.rename_eq_self_iff`).
-/

namespace KernelTyping

namespace Expr

variable {rules : Rules} {m : Renames} {e x : Expr}

/-- Renaming puts the expansion of some invocation in its place.  What is inside of an invocation
does not count. -/
inductive Unfolds (rules : Rules) (m : Renames) : Expr → Prop where
  | invocation {e x : Expr} {r : String × Rule} :
    e.invocation? rules = some r → e.expand rules = .ok x → x.calls.any m.contains = true →
      Unfolds rules m e
  | child {c e : Expr} :
    e.invocation? rules = none → c ∈ e.children → Unfolds rules m c → Unfolds rules m e

/-- Every call in the expression that is recorded refers to its new name already. -/
def Keeps (m : Renames) (e : Expr) : Prop :=
  ∀ call ∈ e.calls, ∀ name, m.get? call = some name → call.callee? = some (.entry name)

theorem Keeps.of_mem_children {c : Expr} (h : e.Keeps m) (hc : c ∈ e.children) : c.Keeps m := by
  intro call hcall
  obtain ⟨hsub, hcall⟩ := mem_calls.1 hcall
  exact h call (mem_calls.2 ⟨mem_subterms_of_mem_children hc hsub, hcall⟩)

theorem pointTo_eq_self {name? : Option String}
    (h : ∀ name, name? = some name → e.callee? = some (.entry name)) : e.pointTo name? = e := by
  cases name? with
  | none => rfl
  | some name =>
    obtain ⟨args, keywords, rfl⟩ := callee?_eq_some.1 (h name rfl)
    rfl

/-- An expression whose renamed form is the same keeps its calls. -/
theorem keeps_of_renameCalls_eq_self (h : e.renameCalls m = e) : e.Keeps m := by
  have hsubterms := subterms_renameCalls m e
  rw [h] at hsubterms
  intro call hcall name hname
  obtain ⟨hcall, hisCall⟩ := mem_calls.1 hcall
  have hsame : call.renameCalls m = call :=
    List.map_inj_left.1 (hsubterms.symm.trans (List.map_id _).symm) call hcall
  rw [← hsame, callee?_renameCalls hisCall, hname]
  rfl

/-- Where an expression is no invocation, what is renamed to itself has its children renamed to
themselves. -/
theorem rename_child_eq_self (hinvocation : e.invocation? rules = none)
    (h : e.rename rules m = .ok e) {c : Expr} (hc : c ∈ e.children) :
    c.rename rules m = .ok c := by
  rw [rename_of_not_invocation hinvocation] at h
  obtain ⟨name?, -, h⟩ := bind_eq_ok.1 h
  cases hchildren : e.mapChildrenM (rename rules m) with
  | error f =>
    rw [hchildren] at h
    cases h
  | ok y =>
    rw [hchildren] at h
    obtain ⟨ys, hys, hy⟩ := bind_eq_ok.1 hchildren
    obtain rfl := Except.ok.inj hy
    have hys := mapM_eq_ok.1 hys
    have hsame : ys = e.children := by
      rw [← children_withChildren hys.length_eq.symm, ← children_pointTo name?]
      exact congrArg children (Except.ok.inj h)
    rw [hsame] at hys
    exact List.forall₂_same.1 hys c hc

/-- What is renamed to itself unfolds nothing. -/
theorem not_unfolds_of_rename_eq_self (h : e.rename rules m = .ok e) : ¬e.Unfolds rules m := by
  intro hunfolds
  induction hunfolds with
  | @invocation e x r hinvocation hx hany =>
    rw [rename_of_invocation hinvocation, hx] at h
    simp only [Except.map, hany, if_true, Except.ok.injEq] at h
    -- nothing in an expansion is an invocation
    have hexpanded := expanded_renameCalls (m := m) (expanded_expandWithin hx)
    rw [h] at hexpanded
    rw [(each_iff.1 hexpanded).1] at hinvocation
    cases hinvocation
  | child hinvocation hc _ ih => exact ih (rename_child_eq_self hinvocation h hc)

/-- An expression that keeps the calls of its expansion and unfolds nothing is renamed to itself. -/
theorem rename_eq_self (hm : m.Normal rules) (h : e.expand rules = .ok x)
    (hunfolds : ¬e.Unfolds rules m) (hkeeps : x.Keeps m) : e.rename rules m = .ok e := by
  induction e using inductionOnChildren generalizing x with
  | step e ih =>
    cases hinvocation : e.invocation? rules with
    | some r =>
      have hnone : ¬x.calls.any m.contains = true := fun hany =>
        hunfolds (.invocation hinvocation h hany)
      rw [rename_of_invocation hinvocation, h]
      simp [Except.map, hnone]
    | none =>
      have hchildren := h
      rw [expand, expandWithin_of_not_invocation _ hinvocation] at hchildren
      obtain ⟨cs, hcs, hx⟩ := bind_eq_ok.1 hchildren
      obtain rfl := Except.ok.inj hx
      have hcs := mapM_eq_ok.1 hcs
      have hrename : e.children.mapM (rename rules m) = .ok e.children := by
        refine mapM_eq_ok.2 (List.forall₂_same.2 fun c hc => ?_)
        obtain ⟨x, hx, hcx⟩ := exists_right_of_forall₂ hcs hc
        refine ih c hc hcx (fun hunfolded => hunfolds (.child hinvocation hc hunfolded)) ?_
        refine hkeeps.of_mem_children ?_
        rwa [children_withChildren hcs.length_eq.symm]
      have hname := newName?_eq hm h (isCall_withChildren e cs)
      rw [rename_of_not_invocation hinvocation, hname]
      show Except.map _ (e.mapChildrenM (rename rules m)) = _
      rw [mapChildrenM, hrename, ok_bind, withChildren_children]
      refine congrArg Except.ok (pointTo_eq_self fun name hname => ?_)
      have hcall := (hm (e.withChildren cs) (by simp [Renames.contains, hname])).1
      rw [← callee?_withChildren e cs]
      exact hkeeps _ (mem_calls.2 ⟨mem_subterms_self _, hcall⟩) name hname

theorem rename_eq_self_iff (hm : m.Normal rules) (h : e.expand rules = .ok x) :
    e.rename rules m = .ok e ↔ ¬e.Unfolds rules m ∧ x.Keeps m := by
  refine ⟨fun hsame => ⟨not_unfolds_of_rename_eq_self hsame, ?_⟩, fun ⟨hunfolds, hkeeps⟩ =>
    rename_eq_self hm h hunfolds hkeeps⟩
  obtain ⟨y, hy, hexpand⟩ := rename_spec hm h
  obtain rfl := Except.ok.inj (hsame.symm.trans hy)
  exact keeps_of_renameCalls_eq_self (Except.ok.inj (hexpand.symm.trans h))

end Expr

namespace Kernel

variable {k e : Kernel} {m : Renames}

/-- Renaming leaves a kernel as it is exactly if it unfolds nothing and every recorded call refers
to its new name already. -/
theorem rename_eq_self_iff (hm : m.Normal k.rules) (h : k.expand = .ok e) :
    k.rename m = .ok k ↔
      (∀ i ∈ k.instructions, ∀ x ∈ i.expressions, ¬x.Unfolds k.rules m) ∧
        ∀ i ∈ e.instructions, ∀ x ∈ i.expressions, x.Keeps m := by
  have hexpressions : (∀ i ∈ k.instructions, ∀ x ∈ i.expressions, x.rename k.rules m = .ok x) ↔
      (∀ i ∈ k.instructions, ∀ x ∈ i.expressions, ¬x.Unfolds k.rules m) ∧
        ∀ i ∈ e.instructions, ∀ x ∈ i.expressions, x.Keeps m := by
    constructor
    · intro hrename
      refine ⟨fun i hi x hx => Expr.not_unfolds_of_rename_eq_self (hrename i hi x hx), ?_⟩
      intro i hi y hy
      obtain ⟨j, hj, x, hx, hxy⟩ := exists_of_mem_expand h hi hy
      exact ((Expr.rename_eq_self_iff hm hxy).1 (hrename j hj x hx)).2
    · rintro ⟨hunfolds, hkeeps⟩ i hi x hx
      obtain ⟨is, his, rfl⟩ := expand_eq_ok.1 h
      obtain ⟨j, hj, hij⟩ := exists_right_of_forall₂ his hi
      obtain ⟨y, hy, hxy⟩ := exists_right_of_forall₂ hij.expressions hx
      exact Expr.rename_eq_self hm hxy (hunfolds i hi x hx) (hkeeps j hj y hy)
  unfold rename
  by_cases hempty : m.isEmpty = true
  · -- without renames nothing is looked at
    have hnone (x : Expr) : m.contains x = false := by
      simp [Renames.contains, get?_of_isEmpty hempty]
    have hunfolds (x : Expr) : ¬x.Unfolds k.rules m := by
      intro hx
      induction hx with
      | invocation _ _ hany => simp [hnone] at hany
      | child _ _ _ ih => exact ih
    have hkeeps (x : Expr) : x.Keeps m := fun call _ name hname => by
      simp [get?_of_isEmpty hempty] at hname
    simp only [hempty, if_true]
    exact ⟨fun _ => ⟨fun _ _ x _ => hunfolds x, fun _ _ x _ => hkeeps x⟩, fun _ => rfl⟩
  · rw [← hexpressions]
    simp only [hempty, Bool.false_eq_true, if_false]
    rw [bind_eq_ok]
    constructor
    · rintro ⟨is, his, hk⟩
      have hsame : is = k.instructions := congrArg (·.instructions) (Except.ok.inj hk)
      rw [hsame] at his
      intro i hi
      have hi := List.forall₂_same.1 (mapM_eq_ok.1 his) i hi
      exact Instruction.Maps.self_iff.1 (Instruction.mapExpressionsM_eq_ok.1 hi)
    · intro hrename
      refine ⟨k.instructions, mapM_eq_ok.2 (List.forall₂_same.2 fun i hi => ?_), rfl⟩
      exact Instruction.mapExpressionsM_eq_ok.2 (Instruction.Maps.self_iff.2 (hrename i hi))

end Kernel

end KernelTyping
