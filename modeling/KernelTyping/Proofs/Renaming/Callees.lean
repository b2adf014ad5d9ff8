import KernelTyping.Proofs.Renaming

/-!
# KernelTyping.Proofs.Renaming.Callees — what a renamed kernel calls

A renamed expression names what it did, what the rules name, and recorded entries
(`Expr.calleesIn_rename`).  So a renamed kernel calls the entries that it called before, and recorded
ones (`Kernel.mem_calledEntries_of_rename`).
-/

namespace KernelTyping

namespace Expr

variable {rules : Rules} {m : Renames} {Q : Callee → Prop} {e x y : Expr}

theorem exists_get?_of_newName? {name : String}
    (h : e.newName? rules m = .ok (some name)) : ∃ call, m.get? call = some name := by
  unfold newName? at h
  split at h
  case h_1 found hfound =>
    obtain rfl := Option.some.inj (Except.ok.inj h)
    exact ⟨e, hfound⟩
  case h_2 =>
    split at h
    · obtain ⟨x, -, hx⟩ := map_eq_ok.1 h
      exact ⟨x, hx⟩
    · cases h

/-- A call that is pointed to an entry names that entry, and otherwise what it did. -/
theorem calleesIn_pointTo {cs : List Expr} {name? : Option String}
    (hlength : cs.length = e.children.length)
    (he : ∀ callee, e.callee? = some callee → Q callee) (hcs : ∀ c ∈ cs, c.CalleesIn Q)
    (hname : ∀ name, name? = some name → Q (.entry name)) :
    ((e.withChildren cs).pointTo name?).CalleesIn Q := by
  refine each_iff.2 ⟨fun callee hcallee => ?_, ?_⟩
  · have hkept := ofNode_calleesIn Q e cs he
    cases name? with
    | none => exact hkept callee hcallee
    | some name =>
      generalize e.withChildren cs = d at hkept hcallee
      cases d with
      | call =>
        obtain rfl := Option.some.inj hcallee
        exact hname name rfl
      | _ => exact hkept callee hcallee
  · rw [children_pointTo, children_withChildren hlength]
    exact hcs

section Recorded

variable (hm : ∀ call name, m.get? call = some name → Q (.entry name))

include hm

theorem calleesIn_renameCalls (h : e.CalleesIn Q) : (e.renameCalls m).CalleesIn Q := by
  induction e using inductionOnChildren with
  | step e ih =>
    obtain ⟨he, hchildren⟩ := each_iff.1 h
    rw [renameCalls_eq, mapChildren]
    refine calleesIn_pointTo (by simp) he ?_ (hm e)
    exact List.forall_mem_map.2 fun c hc => ih c hc (hchildren c hc)

/-- A renamed expression names what it did, what the rules name, and recorded entries. -/
theorem calleesIn_rename
    (hrules : ∀ (name : String) (rule : Rule), rules[name]? = some rule → rule.body.CalleesIn Q)
    (he : e.CalleesIn Q) (h : e.rename rules m = .ok y) : y.CalleesIn Q := by
  induction e using inductionOnChildren generalizing y with
  | step e ih =>
    cases hinvocation : e.invocation? rules with
    | some r =>
      rw [rename_of_invocation hinvocation] at h
      obtain ⟨x, hx, rfl⟩ := map_eq_ok.1 h
      split
      · exact calleesIn_renameCalls hm (each_expandWithin (ofNode_calleesIn Q) hrules hx he)
      · exact he
    | none =>
      obtain ⟨hnode, hchildren⟩ := each_iff.1 he
      rw [rename_of_not_invocation hinvocation] at h
      obtain ⟨name?, hname, h⟩ := bind_eq_ok.1 h
      obtain ⟨z, hz, rfl⟩ := map_eq_ok.1 h
      obtain ⟨cs, hcs, hz⟩ := bind_eq_ok.1 hz
      obtain rfl := Except.ok.inj hz
      have hcs := mapM_eq_ok.1 hcs
      refine calleesIn_pointTo hcs.length_eq.symm hnode ?_ ?_
      · exact forall_right_of_forall₂ hcs fun c hc c' hrename =>
          ih c hc (hchildren c hc) hrename
      · rintro name rfl
        obtain ⟨call, hcall⟩ := exists_get?_of_newName? hname
        exact hm call name hcall

end Recorded

end Expr

/-- A renamed kernel calls what it did, and recorded entries. -/
theorem Kernel.mem_calledEntries_of_rename {k k' : Kernel} {m : Renames} {name : String}
    (h : k.rename m = .ok k') (hname : name ∈ k'.calledEntries) :
    name ∈ k.calledEntries ∨ ∃ call, m.get? call = some name := by
  let Q (callee : Callee) : Prop := ∀ name, callee = .entry name →
    name ∈ k.calledEntries ∨ ∃ call, m.get? call = some name
  have hQ {x : Expr} (hx : ∀ name, x.Mentions (.entry name) → name ∈ k.calledEntries) :
      x.CalleesIn Q := by
    refine Expr.calleesIn_iff.2 ?_
    rintro _ hmentions name rfl
    exact .inl (hx name hmentions)
  have hrules (rule : String) (r : Rule) (hr : k.rules[rule]? = some r) : r.body.CalleesIn Q :=
    hQ fun name hmentions => Kernel.mem_calledEntries.2 (.inr ⟨rule, r, hr, hmentions⟩)
  have hm (call : Expr) (name : String) (hcall : m.get? call = some name) : Q (.entry name) := by
    intro other hother
    obtain rfl := Callee.entry.inj hother
    exact .inr ⟨call, hcall⟩
  unfold Kernel.rename at h
  split at h
  · obtain rfl := Except.ok.inj h
    exact .inl hname
  · obtain ⟨is, his, h⟩ := bind_eq_ok.1 h
    obtain rfl := Except.ok.inj h
    rcases Kernel.mem_calledEntries.1 hname with ⟨j, hj, y, hy, hmentions⟩ | hrule
    · have hall : ∀ j ∈ is, ∀ y ∈ j.expressions, y.CalleesIn Q :=
        forall_right_of_forall₂ (mapM_eq_ok.1 his) fun i hi j hij =>
          forall_right_of_forall₂ (Instruction.mapExpressionsM_eq_ok.1 hij).expressions
            fun x hx y hxy => Expr.calleesIn_rename hm hrules
              (hQ fun name hmentions =>
                Kernel.mem_calledEntries.2 (.inl ⟨i, hi, x, hx, hmentions⟩)) hxy
      exact Expr.calleesIn_iff.1 (hall j hj y hy) _ hmentions name rfl
    · exact .inl (Kernel.mem_calledEntries.2 (.inr hrule))

theorem Kernel.calledEntries_withTypes (k : Kernel) (types : List (String × ElementType)) :
    (k.withTypes types).calledEntries = k.calledEntries := by
  unfold calledEntries
  rw [instructions_withTypes, rules_withTypes]

end KernelTyping
