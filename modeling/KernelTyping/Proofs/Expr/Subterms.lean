import KernelTyping.Kernel

/-!
# KernelTyping.Proofs.Expr.Subterms — names and callees among the subterms

The variables that an expression reads and the callees that it names are those of its subterms.  To
replace variables by a leaf changes no callee and adds no variable, so that a view mentions at its
start no more than it does as a whole.
-/

namespace KernelTyping.Expr

theorem mem_subterms_self (e : Expr) : e ∈ e.subterms := by
  rw [subterms_eq]
  exact List.mem_cons_self

theorem mem_subterms_of_mem_children {c d e : Expr} (hc : c ∈ e.children) (hd : d ∈ c.subterms) :
    d ∈ e.subterms := by
  rw [subterms_eq]
  exact List.mem_cons_of_mem _ (List.mem_flatMap.2 ⟨c, hc, hd⟩)

theorem mem_subterms_trans {a b c : Expr} (hab : a ∈ b.subterms) (hbc : b ∈ c.subterms) :
    a ∈ c.subterms := by
  induction c using inductionOnChildren with
  | step c ih =>
    rw [subterms_eq, List.mem_cons, List.mem_flatMap] at hbc
    rcases hbc with rfl | ⟨d, hd, hb⟩
    · exact hab
    · exact mem_subterms_of_mem_children hd (ih d hd hb)

theorem mem_dependencyNames {e : Expr} {name : String} :
    name ∈ e.dependencyNames ↔ var name ∈ e.subterms := by
  rw [dependencyNames, Std.ExtTreeSet.mem_ofList, List.contains_iff_mem, List.mem_filterMap]
  constructor
  · rintro ⟨d, hd, h⟩
    cases d with
    | var n =>
      obtain rfl : n = name := by simpa [varName?] using h
      exact hd
    | _ => simp [varName?] at h
  · exact fun h => ⟨_, h, rfl⟩

theorem mem_calls {d e : Expr} : d ∈ e.calls ↔ d ∈ e.subterms ∧ d.isCall = true := by
  rw [calls, List.mem_filter]

/-! ### The node of an expression -/

/-- What a call refers to. -/
def callee? : Expr → Option Callee
  | call callee _ _ => some callee
  | _ => none

theorem callee?_eq_some {e : Expr} {callee : Callee} :
    e.callee? = some callee ↔ ∃ args keywords, e = call callee args keywords := by
  cases e <;> simp [callee?]

@[simp] theorem varName?_withChildren (e : Expr) (cs : List Expr) :
    (e.withChildren cs).varName? = e.varName? := by
  cases e <;> unfold withChildren <;> split <;> simp_all [varName?]

@[simp] theorem callee?_withChildren (e : Expr) (cs : List Expr) :
    (e.withChildren cs).callee? = e.callee? := by
  cases e <;> unfold withChildren <;> split <;> simp_all [callee?]

theorem varName?_eq_some {e : Expr} {name : String} :
    e.varName? = some name ↔ e = var name := by
  cases e <;> simp [varName?]

/-! ### Variables replaced by a leaf -/

section Leaf

variable {names : List String} {leaf : Expr}

theorem replaceVars_var (name : String) :
    (var name).replaceVars names leaf = if name ∈ names then leaf else var name := by
  unfold replaceVars
  rw [rebuild_eq]
  rfl

theorem replaceVars_of_varName? {e : Expr} (h : e.varName? = none) :
    e.replaceVars names leaf = e.mapChildren (·.replaceVars names leaf) := by
  unfold replaceVars
  rw [rebuild_eq]
  split
  case h_1 name he =>
    rw [← varName?_eq_some, mapChildren, varName?_withChildren, h] at he
    cases he
  case h_2 => rfl

theorem children_replaceVars (hleaf : leaf.children = []) (e : Expr) :
    (e.replaceVars names leaf).children = e.children.map (·.replaceVars names leaf) := by
  cases h : e.varName? with
  | some name =>
    rw [varName?_eq_some.1 h, replaceVars_var]
    split
    · exact hleaf
    · rfl
  | none => rw [replaceVars_of_varName? h, children_mapChildren]

theorem subterms_replaceVars (hleaf : leaf.children = []) (e : Expr) :
    (e.replaceVars names leaf).subterms = e.subterms.map (·.replaceVars names leaf) := by
  induction e using inductionOnChildren with
  | step e ih =>
    rw [subterms_eq, subterms_eq e, children_replaceVars hleaf, List.map_cons, List.flatMap_map,
      List.map_flatMap]
    congr 1
    rw [List.flatMap_def, List.flatMap_def, List.map_congr_left ih]

/-- What is a variable after the replacement was that variable before. -/
theorem eq_var_of_replaceVars {e : Expr} {name : String} (hleaf : leaf.varName? = none)
    (h : e.replaceVars names leaf = var name) : e = var name := by
  cases he : e.varName? with
  | some n =>
    rw [varName?_eq_some.1 he, replaceVars_var] at h
    split at h
    · rw [h] at hleaf
      cases hleaf
    · rw [varName?_eq_some.1 he, h]
  | none =>
    rw [replaceVars_of_varName? he, mapChildren] at h
    rw [← varName?_eq_some, varName?_withChildren, he] at h
    cases h

theorem callee?_replaceVars (hleaf : leaf.callee? = none) (e : Expr) :
    (e.replaceVars names leaf).callee? = e.callee? := by
  cases he : e.varName? with
  | some n =>
    rw [varName?_eq_some.1 he, replaceVars_var]
    split
    · exact hleaf
    · rfl
  | none => rw [replaceVars_of_varName? he, mapChildren, callee?_withChildren]

end Leaf

theorem subterms_beginSubscript (inames : List String) (e : Expr) :
    (beginSubscript inames e).subterms = e.subterms.map (beginSubscript inames) :=
  subterms_replaceVars rfl e

theorem dependencyNames_beginSubscript {inames : List String} {e : Expr} {name : String}
    (h : name ∈ (beginSubscript inames e).dependencyNames) : name ∈ e.dependencyNames := by
  rw [mem_dependencyNames, subterms_beginSubscript, List.mem_map] at h
  obtain ⟨d, hd, h⟩ := h
  rw [eq_var_of_replaceVars rfl h] at hd
  exact mem_dependencyNames.2 hd

/-! ### Callees -/

/-- The expression has a call of that callee. -/
def Mentions (e : Expr) (callee : Callee) : Prop := ∃ d ∈ e.subterms, d.callee? = some callee

theorem Mentions.of_mem_children {c e : Expr} {callee : Callee} (hc : c ∈ e.children)
    (h : c.Mentions callee) : e.Mentions callee := by
  obtain ⟨d, hd, h⟩ := h
  exact ⟨d, mem_subterms_of_mem_children hc hd, h⟩

theorem mentions_call (callee : Callee) (args : List Expr) (keywords : List (String × Expr)) :
    (call callee args keywords).Mentions callee := ⟨_, mem_subterms_self _, rfl⟩

theorem mentions_beginSubscript {inames : List String} {e : Expr} {callee : Callee} :
    (beginSubscript inames e).Mentions callee ↔ e.Mentions callee := by
  have hcallee (d : Expr) : (beginSubscript inames d).callee? = d.callee? :=
    callee?_replaceVars rfl d
  constructor
  · rintro ⟨d, hd, h⟩
    rw [subterms_beginSubscript, List.mem_map] at hd
    obtain ⟨a, ha, rfl⟩ := hd
    exact ⟨a, ha, (hcallee a).symm.trans h⟩
  · rintro ⟨a, ha, h⟩
    refine ⟨beginSubscript inames a, ?_, (hcallee a).trans h⟩
    rw [subterms_beginSubscript]
    exact List.mem_map_of_mem ha

end KernelTyping.Expr
