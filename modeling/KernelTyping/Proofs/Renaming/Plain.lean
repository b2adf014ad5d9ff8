import Mathlib
import KernelTyping.Proofs.Renaming

/-!
# KernelTyping.Proofs.Renaming.Plain — expansion of what was renamed

`Expr.RenamedTo m` is renaming by the letter: each call that is recorded refers to its new name, its
arguments are renamed in the same way, and all else stays.  An expression has one renamed form
(`renamedTo_iff`).  On an expression without invocations `Expr.rename` does nothing but this
(`rename_of_expanded`).  Where there are invocations, what it gives expands to the renamed form of
the expansion (`expand_rename`).
-/

namespace KernelTyping

namespace Expr

variable {rules : Rules} {m : Renames} {e x z : Expr}

/-! ### Renaming by the letter -/

/-- The second expression is the first with every recorded call under its new name. -/
inductive RenamedTo (m : Renames) : Expr → Expr → Prop where
  | recorded {callee : Callee} {args args' : List Expr} {keywords keywords' : List (String × Expr)}
    {name : String} (hname : m.get? (.call callee args keywords) = some name)
    (hargs : List.Forall₂ (RenamedTo m) args args')
    (hkeys : keywords'.map (·.1) = keywords.map (·.1))
    (hkeywords : List.Forall₂ (RenamedTo m) (keywords.map (·.2)) (keywords'.map (·.2))) :
    RenamedTo m (.call callee args keywords) (.call (.entry name) args' keywords')
  | kept {e : Expr} {cs : List Expr} (hname : e.isCall = true → m.get? e = none)
    (hchildren : List.Forall₂ (RenamedTo m) e.children cs) : RenamedTo m e (e.withChildren cs)

theorem withChildren_call {callee : Callee} {args args' : List Expr}
    {keywords keywords' : List (String × Expr)} (hargs : args'.length = args.length)
    (hkeys : keywords'.map (·.1) = keywords.map (·.1)) :
    (call callee args keywords).withChildren (args' ++ keywords'.map (·.2)) =
      call callee args' keywords' := by
  rw [withChildren, ← hargs, List.take_left, List.drop_left, ← hkeys, zip_map_fst_snd]

theorem pointTo_of_not_isCall (name? : Option String) (h : e.isCall = false) :
    e.pointTo name? = e := by
  cases name? with
  | none => rfl
  | some name =>
    cases e with
    | call _ _ _ => cases h
    | _ => rfl

/-- A renamed form has the renamed forms of the children, below the new name of the node. -/
theorem renamedTo_iff_children :
    RenamedTo m e z ↔ ∃ cs, List.Forall₂ (RenamedTo m) e.children cs ∧
      z = (e.withChildren cs).pointTo (m.get? e) := by
  constructor
  · intro h
    cases h with
    | @recorded callee args args' keywords keywords' name hname hargs hkeys hkeywords =>
      refine ⟨args' ++ keywords'.map (·.2), List.rel_append hargs hkeywords, ?_⟩
      rw [hname, withChildren_call hargs.length_eq.symm hkeys]
      rfl
    | @kept _ cs hname hchildren =>
      refine ⟨cs, hchildren, ?_⟩
      cases hcall : e.isCall with
      | true => rw [hname hcall]; rfl
      | false => rw [pointTo_of_not_isCall _ (by simpa using hcall)]
  · rintro ⟨cs, hcs, rfl⟩
    cases hcall : e.isCall with
    | false =>
      rw [pointTo_of_not_isCall _ (by simpa using hcall)]
      exact .kept (by simp [hcall]) hcs
    | true =>
      cases hname : m.get? e with
      | none => exact .kept (fun _ => hname) hcs
      | some name =>
        cases e with
        | call callee args keywords =>
          have hlength : cs.length = args.length + keywords.length := by
            simpa [children] using hcs.length_eq.symm
          have hargs := List.forall₂_take args.length hcs
          have hkeywords := List.forall₂_drop args.length hcs
          rw [children, List.take_left] at hargs
          rw [children, List.drop_left] at hkeywords
          refine .recorded hname hargs (List.map_fst_zip (by simp [hlength])) ?_
          rwa [List.map_snd_zip (by simp [hlength])]
        | _ => cases hcall

theorem forall₂_iff_eq_map {α β : Type} {R : α → β → Prop} {f : α → β} {as : List α} {bs : List β}
    (h : ∀ a ∈ as, ∀ b, R a b ↔ b = f a) : List.Forall₂ R as bs ↔ bs = as.map f := by
  induction as generalizing bs with
  | nil => simp
  | cons a as ih =>
    have ih := fun bs => @ih bs fun a ha => h a (by simp [ha])
    simp only [List.forall₂_cons_left_iff, h a (by simp), ih, List.map_cons]
    simp

/-- Every expression has one renamed form. -/
theorem renamedTo_iff : RenamedTo m e z ↔ z = e.renameCalls m := by
  induction e using inductionOnChildren generalizing z with
  | step e ih =>
    have hchildren (cs : List Expr) : List.Forall₂ (RenamedTo m) e.children cs ↔
        cs = e.children.map (renameCalls m) := forall₂_iff_eq_map fun c hc z => ih c hc
    simp only [renamedTo_iff_children, hchildren, exists_eq_left]
    rw [renameCalls_eq, mapChildren]

/-! ### Renaming without invocations -/

/-- A call in an expression without invocations has the name that is recorded for it, if any. -/
theorem newName?_of_expanded (h : e.Expanded rules) : e.newName? rules m = .ok (m.get? e) := by
  unfold newName?
  cases hname : m.get? e with
  | some name => rfl
  | none =>
    have hsame : e.expand rules = .ok e := expandWithin_of_expanded _ h
    rw [hsame, Except.map, hname, ite_self]

/-- Renaming goes on in the expansion of an invocation just as by the letter. -/
theorem rename_of_expanded (h : e.Expanded rules) : e.rename rules m = .ok (e.renameCalls m) := by
  induction e using inductionOnChildren with
  | step e ih =>
    obtain ⟨hinvocation, hexpanded⟩ := each_iff.1 h
    have hchildren : e.children.mapM (rename rules m) = .ok (e.children.map (renameCalls m)) := by
      rw [mapM_eq_ok, List.forall₂_map_right_iff, List.forall₂_same]
      exact fun c hc => ih c hc (hexpanded c hc)
    rw [rename_of_not_invocation hinvocation, newName?_of_expanded h, mapChildrenM, hchildren,
      renameCalls_eq]
    rfl

/-! ### Renaming before expansion -/

/-- **Renaming before expansion is renaming after it, by the letter.**  What was recorded are calls
in expanded form.  Then any expression that expands can be renamed, and what comes out expands to
the one renamed form of its expansion. -/
theorem expand_rename (hm : m.Normal rules) (hx : e.expand rules = .ok x) :
    ∃ y z, e.rename rules m = .ok y ∧ y.expand rules = .ok z ∧ x.rename rules m = .ok z ∧
      ∀ z', x.RenamedTo m z' ↔ z' = z := by
  obtain ⟨y, hy, hz⟩ := rename_spec hm hx
  have hexpanded : x.Expanded rules := expanded_expandWithin hx
  exact ⟨y, x.renameCalls m, hy, hz, rename_of_expanded hexpanded, fun _ => renamedTo_iff⟩

end Expr

/-! ### Rules in rules -/

/-- Calls that expand to themselves are in expanded form. -/
theorem Renames.Normal.of_entries {rules : Rules} {m : Renames}
    (h : ∀ call ∈ m.entries.map (·.call), call.isCall = true ∧ call.expand rules = .ok call) :
    m.Normal rules := by
  intro e he
  obtain ⟨r, hr, -⟩ := Option.map_eq_some_iff.1 (Option.some_get he).symm
  obtain ⟨hmem, -, rfl⟩ := isFor_of_find? hr
  obtain ⟨hcall, hsame⟩ := h r.call (List.mem_map_of_mem hmem)
  exact ⟨hcall, Expr.expanded_expandWithin hsame⟩

/-- Three rules: one without a call, one with a call, and a reduction that shadows a parameter. -/
def nestedRules : Rules :=
  (((∅ : Rules).insert "twice" ⟨["a"], .nary .sum [.var "a", .var "a"]⟩).insert
    "root" ⟨["a"], .call (.entry "sqrt") [.nary .sum [.var "a", .int 1]] []⟩).insert
    "total" ⟨["a", "b"],
      .reduction .sum ["a"] (.call (.entry "abs") [.nary .product [.var "a", .var "b"]] [])⟩

/-- A call with invocations in its argument and its keyword argument. -/
def nestedCall : Expr :=
  .call (.entry "pow") [.call (.bare "twice") [.call (.bare "root") [.var "x"] []] []]
    [("e", .call (.bare "total") [.var "y", .call (.bare "root") [.var "z"] []] [])]

/-- The root of one more than a variable. -/
def rootOf (sqrt name : String) : Expr :=
  .call (.entry sqrt) [.nary .sum [.var name, .int 1]] []

/-- The expansion of `nestedCall`, for what its calls refer to. -/
def nestedForm (pow sqrt₁ sqrt₂ abs : String) : Expr :=
  .call (.entry pow) [.nary .sum [rootOf sqrt₁ "x", rootOf sqrt₁ "x"]]
    [("e", .reduction .sum ["a"]
      (.call (.entry abs) [.nary .product [.var "a", rootOf sqrt₂ "z"]] []))]

def nestedRenames : Renames := .ofList [
  (rootOf "sqrt" "x", "sqrt_0"), (rootOf "sqrt" "z", "sqrt_1"),
  (.call (.entry "abs") [.nary .product [.var "a", rootOf "sqrt" "z"]] [], "abs_0"),
  (nestedForm "pow" "sqrt" "sqrt" "abs", "pow_0")]

theorem normal_nestedRenames : nestedRenames.Normal nestedRules := by
  have hcalls : nestedRenames.entries.map (·.call) = [rootOf "sqrt" "x", rootOf "sqrt" "z",
    .call (.entry "abs") [.nary .product [.var "a", rootOf "sqrt" "z"]] [],
    nestedForm "pow" "sqrt" "sqrt" "abs"] := by cbv
  refine .of_entries ?_
  rw [hcalls]
  simp only [List.forall_mem_cons]
  exact ⟨⟨rfl, by cbv⟩, ⟨rfl, by cbv⟩, ⟨rfl, by cbv⟩, ⟨rfl, by cbv⟩, by simp⟩

theorem expand_rename_nestedCall :
    nestedRenames.Normal nestedRules ∧
      nestedCall.expand nestedRules = .ok (nestedForm "pow" "sqrt" "sqrt" "abs") ∧
      ∃ y, nestedCall.rename nestedRules nestedRenames = .ok y ∧
        y.expand nestedRules = .ok (nestedForm "pow_0" "sqrt_0" "sqrt_1" "abs_0") ∧
        (nestedForm "pow" "sqrt" "sqrt" "abs").RenamedTo nestedRenames
          (nestedForm "pow_0" "sqrt_0" "sqrt_1" "abs_0") := by
  have hx : nestedCall.expand nestedRules = .ok (nestedForm "pow" "sqrt" "sqrt" "abs") := by cbv
  obtain ⟨y, z, hy, hz, -, hrenamed⟩ := Expr.expand_rename normal_nestedRenames hx
  have hform : (nestedForm "pow" "sqrt" "sqrt" "abs").RenamedTo nestedRenames
      (nestedForm "pow_0" "sqrt_0" "sqrt_1" "abs_0") := Expr.renamedTo_iff.2 (by cbv)
  obtain rfl := (hrenamed _).1 hform
  exact ⟨normal_nestedRenames, hx, y, hy, hz, hform⟩

end KernelTyping
