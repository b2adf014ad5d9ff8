import KernelTyping.Proofs.Expansion
import KernelTyping.Proofs.Expr.Parts

/-!
# KernelTyping.Proofs.Expansion.Capture — what a substitution captures

Reductions and views bind names.  A place in an expression is a path of positions among the children,
`at?` looks it up, and `scope` lists what is bound there.  A substitution captures nothing
(`CaptureFree`) if

* what is bound in the body stays, and
* what is put in stands only where none of its free variables is bound.

It leaves alone what a reduction binds (`at?_substitute_of_mem`), but not what a view does, and it
does not look at the variables of what it puts in.  `captureFree_iff` says where that does no harm.
-/

namespace KernelTyping

namespace Substitution

variable {σ : Substitution} {names : List String} {x : String}

theorem without_of_mem (h : x ∈ names) : σ.without names x = none := if_pos h

theorem without_of_not_mem (h : x ∉ names) : σ.without names x = σ x := if_neg h

@[simp] theorem without_nil (σ : Substitution) : σ.without [] = σ := by
  funext x
  exact without_of_not_mem List.not_mem_nil

theorem without_without (σ : Substitution) (xs ys : List String) :
    (σ.without xs).without ys = σ.without (xs ++ ys) := by
  funext x
  by_cases hxs : x ∈ xs <;> by_cases hys : x ∈ ys <;> simp [without, hxs, hys]

end Substitution

namespace Expr

variable {b c d e : Expr} {σ : Substitution} {i : Nat} {path : List Nat} {v : String}

/-! ### Places -/

/-- The names that a node binds in its children: the index names of a reduction, and those that a
view sweeps. -/
def binders : Expr → List String
  | view inames _ => inames
  | e => e.boundNames

/-- The expression at a place. -/
def at? : Expr → List Nat → Option Expr
  | e, [] => some e
  | e, i :: path => e.children[i]?.bind fun c => c.at? path

/-- The names that are bound at a place, where `binds` are the names that a node binds. -/
def scope (binds : Expr → List String) : Expr → List Nat → List String
  | _, [] => []
  | e, i :: path => binds e ++ e.children[i]?.elim [] fun c => scope binds c path

theorem at?_cons : e.at? (i :: path) = some d ↔
    ∃ c, e.children[i]? = some c ∧ c.at? path = some d := by
  simp [at?, Option.bind_eq_some_iff]

theorem scope_cons (binds : Expr → List String) (h : e.children[i]? = some c) :
    e.scope binds (i :: path) = binds e ++ c.scope binds path := by
  simp [scope, h]

theorem scope_subset {binds binds' : Expr → List String} (h : ∀ e, binds e ⊆ binds' e) :
    e.scope binds path ⊆ e.scope binds' path := by
  induction path generalizing e with
  | nil => exact List.Subset.refl _
  | cons i path ih =>
    cases hc : e.children[i]? with
    | none =>
      simp only [scope, hc, Option.elim_none, List.append_nil]
      exact h e
    | some c =>
      rw [scope_cons binds hc, scope_cons binds' hc]
      exact List.append_subset.2 ⟨List.Subset.trans (h e) (List.subset_append_left _ _),
        List.Subset.trans ih (List.subset_append_right _ _)⟩

theorem boundNames_subset_binders (e : Expr) : e.boundNames ⊆ e.binders := by
  cases e <;> simp [boundNames, binders]

theorem within_of_at? (h : e.at? path = some d) : d.Within e := by
  induction path generalizing e with
  | nil =>
    obtain rfl := Option.some.inj h
    exact .refl
  | cons i path ih =>
    obtain ⟨c, hc, h⟩ := at?_cons.1 h
    exact within_iff.2 (.inr ⟨c, List.mem_of_getElem? hc, ih h⟩)

/-- Some node of the expression binds the name. -/
def Binds (e : Expr) (v : String) : Prop := ∃ d : Expr, d.Within e ∧ v ∈ d.binders

theorem binds_of_mem_scope (h : v ∈ e.scope binders path) : e.Binds v := by
  induction path generalizing e with
  | nil => cases h
  | cons i path ih =>
    rw [scope, List.mem_append] at h
    rcases h with h | h
    · exact ⟨e, .refl, h⟩
    · cases hc : e.children[i]? with
      | none => simp [hc] at h
      | some c =>
        rw [hc] at h
        obtain ⟨d, hd, hv⟩ := ih h
        exact ⟨d, within_iff.2 (.inr ⟨c, List.mem_of_getElem? hc, hd⟩), hv⟩

/-! ### Free variables -/

/-- The variable occurs at some place where it is not bound. -/
def Free (e : Expr) (v : String) : Prop :=
  ∃ path, e.at? path = some (var v) ∧ v ∉ e.scope binders path

theorem free_iff : e.Free v ↔ e = var v ∨ v ∉ e.binders ∧ ∃ c ∈ e.children, c.Free v := by
  constructor
  · rintro ⟨_ | ⟨i, path⟩, h, hv⟩
    · exact .inl (Option.some.inj h)
    · obtain ⟨c, hc, h⟩ := at?_cons.1 h
      rw [scope_cons binders hc, List.mem_append, not_or] at hv
      exact .inr ⟨hv.1, c, List.mem_of_getElem? hc, path, h, hv.2⟩
  · rintro (rfl | ⟨hv, c, hc, path, h, hpath⟩)
    · exact ⟨[], rfl, List.not_mem_nil⟩
    · obtain ⟨i, hi⟩ := List.getElem?_of_mem hc
      refine ⟨i :: path, at?_cons.2 ⟨c, hi, h⟩, ?_⟩
      rw [scope_cons binders hi, List.mem_append, not_or]
      exact ⟨hv, hpath⟩

theorem free_var {x : String} : (var x).Free v ↔ v = x := by
  rw [free_iff]
  simp [children, eq_comm]

theorem Free.within (h : e.Free v) : (var v).Within e := by
  obtain ⟨path, h, -⟩ := h
  exact within_of_at? h

/-! ### Substitution place by place -/

@[simp] theorem binders_withChildren (e : Expr) (cs : List Expr) :
    (e.withChildren cs).binders = e.binders := by
  cases e <;> unfold withChildren <;> split <;> simp_all [binders, boundNames]

theorem getElem?_children_substitute (σ : Substitution) (h : e.children[i]? = some c) :
    (e.substitute σ).children[i]? = some (c.substitute (σ.without e.boundNames)) ∧
      (e.substitute σ).binders = e.binders := by
  have hvar : e.varName? = none := by
    cases e <;> first | rfl | cases h
  rw [substitute_of_not_var σ hvar, children_mapChildren, List.getElem?_map, h, mapChildren,
    binders_withChildren]
  exact ⟨rfl, rfl⟩

/-- At each place a substitution acts but on what a reduction around it binds. -/
theorem at?_substitute (σ : Substitution) (h : b.at? path = some d) :
    (b.substitute σ).at? path = some (d.substitute (σ.without (b.scope boundNames path))) := by
  induction path generalizing b σ with
  | nil =>
    obtain rfl := Option.some.inj h
    rw [scope, Substitution.without_nil]
    rfl
  | cons i path ih =>
    obtain ⟨c, hc, h⟩ := at?_cons.1 h
    rw [scope_cons boundNames hc, ← Substitution.without_without]
    exact at?_cons.2 ⟨_, (getElem?_children_substitute σ hc).1, ih _ h⟩

theorem scope_substitute (σ : Substitution) (h : b.at? path = some d) :
    (b.substitute σ).scope binders path = b.scope binders path := by
  induction path generalizing b σ with
  | nil => rfl
  | cons i path ih =>
    obtain ⟨c, hc, h⟩ := at?_cons.1 h
    obtain ⟨hc', hbinders⟩ := getElem?_children_substitute σ hc
    rw [scope_cons binders hc, scope_cons binders hc', hbinders, ih _ h]

/-- What a reduction binds is not replaced. -/
theorem at?_substitute_of_mem (σ : Substitution) (h : b.at? path = some (var v))
    (hv : v ∈ b.scope boundNames path) : (b.substitute σ).at? path = some (var v) := by
  rw [at?_substitute σ h, substitute_var, Substitution.without_of_mem hv, Option.getD_none]

/-- The free variables after a substitution are from the body and from what is put in. -/
theorem free_substitute (h : (b.substitute σ).Free v) :
    b.Free v ∨ ∃ x a, σ x = some a ∧ a.Free v := by
  induction b using inductionOnChildren generalizing σ with
  | step b ih =>
    cases hvar : b.varName? with
    | some x =>
      obtain rfl := varName?_eq_some.1 hvar
      rw [substitute_var] at h
      cases ha : σ x with
      | none =>
        rw [ha] at h
        exact .inl h
      | some a =>
        rw [ha] at h
        exact .inr ⟨x, a, ha, h⟩
    | none =>
      rw [substitute_of_not_var σ hvar, free_iff, children_mapChildren] at h
      simp only [mapChildren, binders_withChildren] at h
      rcases h with h | ⟨hv, c', hc', h⟩
      · rw [← varName?_eq_some, varName?_withChildren, hvar] at h
        cases h
      · obtain ⟨c, hc, rfl⟩ := List.mem_map.1 hc'
        rcases ih c hc h with h | ⟨x, a, ha, h⟩
        · exact .inl (free_iff.2 (.inr ⟨hv, c, hc, h⟩))
        · exact .inr ⟨x, a, Substitution.of_without ha, h⟩

/-! ### Capture -/

/-- The substitution captures nothing in the body. -/
structure CaptureFree (σ : Substitution) (b : Expr) : Prop where
  /-- What is bound in the body stays. -/
  stays {path : List Nat} {x : String} : b.at? path = some (var x) → x ∈ b.scope binders path →
    (b.substitute σ).at? path = some (var x)
  /-- What is not bound in the body is replaced, and no free variable of what is put there becomes
  bound. -/
  replaced {path : List Nat} {x : String} {a : Expr} : b.at? path = some (var x) →
    x ∉ b.scope binders path → σ x = some a →
      (b.substitute σ).at? path = some a ∧
        ∀ v, a.Free v → v ∉ (b.substitute σ).scope binders path

/-- A substitution captures nothing exactly if, wherever it replaces a variable by something else, the
variable is not bound there, by a view, and neither is any free variable of what is put there. -/
theorem captureFree_iff :
    CaptureFree σ b ↔ ∀ path x a, b.at? path = some (var x) → x ∉ b.scope boundNames path →
      σ x = some a → a = var x ∨
        x ∉ b.scope binders path ∧ ∀ v, a.Free v → v ∉ b.scope binders path := by
  have hreplaced {path : List Nat} {x : String} {a : Expr} (h : b.at? path = some (var x))
      (hx : x ∉ b.scope boundNames path) (ha : σ x = some a) :
      (b.substitute σ).at? path = some a := by
    rw [at?_substitute σ h, substitute_var, Substitution.without_of_not_mem hx, ha,
      Option.getD_some]
  constructor
  · intro hfree path x a h hx ha
    by_cases hbound : x ∈ b.scope binders path
    · have hstays := hfree.stays h hbound
      rw [hreplaced h hx ha] at hstays
      exact .inl (Option.some.inj hstays)
    · have hscope := (hfree.replaced h hbound ha).2
      rw [scope_substitute σ h] at hscope
      exact .inr ⟨hbound, hscope⟩
  · intro hall
    refine ⟨fun {path x} h hbound => ?_, fun {path x a} h hbound ha => ?_⟩
    · by_cases hx : x ∈ b.scope boundNames path
      · exact at?_substitute_of_mem σ h hx
      · cases ha : σ x with
        | none =>
          rw [at?_substitute σ h, substitute_var, Substitution.without_of_not_mem hx, ha,
            Option.getD_none]
        | some a =>
          rcases hall path x a h hx ha with rfl | ⟨hnot, -⟩
          · exact hreplaced h hx ha
          · exact absurd hbound hnot
    · have hx : x ∉ b.scope boundNames path := fun hx =>
        hbound (scope_subset boundNames_subset_binders hx)
      rw [scope_substitute σ h]
      refine ⟨hreplaced h hx ha, fun v hv => ?_⟩
      rcases hall path x a h hx ha with rfl | ⟨-, hscope⟩
      · rwa [free_var.1 hv]
      · exact hscope v hv

end Expr

end KernelTyping
