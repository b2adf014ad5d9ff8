import KernelTyping.Expansion
import KernelTyping.Proofs.Expr.Subterms
import KernelTyping.Proofs.Instruction
import KernelTyping.Proofs.Kernel

/-!
# KernelTyping.Proofs.Expansion — what an expanded expression looks like

An expansion is unfolded once, as a principle of induction over the nodes and the invocations on the
way (`expandWithin_induction`, and `expandWithin_error_induction` for one that fails).  So an expanded
expression holds no invocation (`expanded_expandWithin`), is left alone by another expansion
(`expandWithin_of_expanded`), and names no callee and no variable that neither the expression nor a
rule names (`each_expandWithin`).
-/

namespace KernelTyping

theorem Substitution.of_without {σ : Substitution} {names : List String} {x : String} {a : Expr}
    (h : σ.without names x = some a) : σ x = some a := by
  unfold without at h
  split at h
  · cases h
  · exact h

namespace Expr

variable {P : Expr → Prop} {e : Expr}

/-! ### Properties of all subterms -/

/-- Every subterm has the property. -/
def Each (P : Expr → Prop) (e : Expr) : Prop := ∀ d ∈ e.subterms, P d

theorem each_iff : e.Each P ↔ P e ∧ ∀ c ∈ e.children, c.Each P := by
  unfold Each
  rw [subterms_eq]
  simp only [List.mem_cons, List.mem_flatMap]
  constructor
  · exact fun h => ⟨h e (.inl rfl), fun c hc d hd => h d (.inr ⟨c, hc, hd⟩)⟩
  · rintro ⟨he, h⟩ d (rfl | ⟨c, hc, hd⟩)
    · exact he
    · exact h c hc d hd

theorem each_withChildren {cs : List Expr} (hlength : cs.length = e.children.length) :
    (e.withChildren cs).Each P ↔ P (e.withChildren cs) ∧ ∀ c ∈ cs, c.Each P := by
  rw [each_iff, children_withChildren hlength]

/-! ### Expansion node by node -/

variable {rules : Rules} {name : String} {rule : Rule} {args : List Expr} {depth : Nat}

theorem invocation?_eq_some :
    e.invocation? rules = some (name, rule) ↔
      ∃ args, e = call (.bare name) args [] ∧ rules[name]? = some rule := by
  unfold invocation?
  split
  case h_1 other args =>
    simp only [Option.map_eq_some_iff, Prod.mk.injEq, call.injEq, Callee.bare.injEq, and_true]
    constructor
    · rintro ⟨found, hfound, rfl, rfl⟩
      exact ⟨args, ⟨rfl, rfl⟩, hfound⟩
    · rintro ⟨_, ⟨rfl, rfl⟩, hrule⟩
      exact ⟨rule, hrule, rfl, rfl⟩
  case h_2 hnot =>
    simp only [reduceCtorEq, false_iff, not_exists, not_and]
    rintro args rfl
    exact absurd rfl (hnot name args)

/-- The expression invokes the rule with as many arguments as the rule takes, and these are the
arguments expanded.  Bodies may nest `depth` deep inside its body. -/
structure Unrolls (rules : Rules) (depth : Nat) (e : Expr) (name : String) (rule : Rule)
    (args : List Expr) : Prop where
  invokes : e.invocation? rules = some (name, rule)
  arity : e.children.length = rule.params.length
  expands : List.Forall₂ (fun c a => c.expandWithin rules (depth + 1) = .ok a) e.children args

theorem Unrolls.rule_eq (h : e.Unrolls rules depth name rule args) : rules[name]? = some rule := by
  obtain ⟨-, -, hrule⟩ := invocation?_eq_some.1 h.invokes
  exact hrule

/-- An expansion expands the children of a node that invokes no rule.  For an invocation it expands
the arguments, and then the body of the rule with the arguments in it. -/
theorem expandWithin_induction {motive : Nat → Expr → Expr → Prop}
    (node : ∀ (depth : Nat) (e : Expr) (cs : List Expr), e.invocation? rules = none →
      List.Forall₂ (fun c c' => c.expandWithin rules depth = .ok c' ∧ motive depth c c')
        e.children cs →
      motive depth e (e.withChildren cs))
    (invocation : ∀ (depth : Nat) (e : Expr) (name : String) (rule : Rule) (args : List Expr)
      (e' : Expr), e.Unrolls rules depth name rule args →
      List.Forall₂ (motive (depth + 1)) e.children args →
      motive depth (rule.body.substitute (.ofParams rule.params args)) e' →
      motive (depth + 1) e e')
    (depth : Nat) (e e' : Expr) (h : e.expandWithin rules depth = .ok e') :
    motive depth e e' := by
  induction depth using Nat.strongRecOn generalizing e e' with
  | ind depth ihDepth =>
    induction e using inductionOnChildren generalizing e' with
    | step e ih =>
      have hchildren {cs : List Expr} (h : e.children.mapM (expandWithin rules depth) = .ok cs) :
          List.Forall₂ (fun c c' => c.expandWithin rules depth = .ok c' ∧ motive depth c c')
            e.children cs := by
        have hcs := (List.forall₂_and_left _ _).2 ⟨fun c hc => hc, mapM_eq_ok.1 h⟩
        exact hcs.imp fun c c' hc => ⟨hc.2, ih c hc.1 c' hc.2⟩
      cases hinvocation : e.invocation? rules with
      | none =>
        rw [expandWithin_of_not_invocation depth hinvocation, mapChildrenM] at h
        obtain ⟨cs, hcs, h⟩ := bind_eq_ok.1 h
        obtain rfl := Except.ok.inj h
        exact node depth e cs hinvocation (hchildren hcs)
      | some found =>
        obtain ⟨name, rule⟩ := found
        cases depth with
        | zero =>
          rw [expandWithin_zero hinvocation] at h
          cases h
        | succ depth =>
          by_cases harity : e.children.length = rule.params.length
          · rw [expandWithin_succ depth hinvocation harity] at h
            obtain ⟨args, hargs, h⟩ := bind_eq_ok.1 h
            have hunrolls : e.Unrolls rules depth name rule args :=
              ⟨hinvocation, harity, mapM_eq_ok.1 hargs⟩
            exact invocation depth e name rule args e' hunrolls
              ((hchildren hargs).imp fun _ _ hc => hc.2)
              (ihDepth depth (Nat.lt_succ_self depth) _ e' h)
          · rw [expandWithin, hinvocation] at h
            simp [harity] at h
            cases h

theorem Unrolls.expandWithin_eq (h : e.Unrolls rules depth name rule args) :
    e.expandWithin rules (depth + 1) =
      (rule.body.substitute (.ofParams rule.params args)).expandWithin rules depth := by
  rw [expandWithin_succ depth h.invokes h.arity, mapM_eq_ok.2 h.expands]
  rfl

theorem exists_expandWithin_of_mem_children {c x : Expr} (h : e.expandWithin rules depth = .ok x)
    (hc : c ∈ e.children) : ∃ y, c.expandWithin rules depth = .ok y := by
  refine expandWithin_induction
    (motive := fun depth e _ => ∀ c ∈ e.children, ∃ y, c.expandWithin rules depth = .ok y)
    ?_ ?_ depth e x h c hc
  · intro depth e cs _ hcs c hc
    obtain ⟨y, -, hy, -⟩ := exists_right_of_forall₂ hcs hc
    exact ⟨y, hy⟩
  · intro depth e name rule args e' hunrolls _ _ c hc
    obtain ⟨y, -, hy⟩ := exists_right_of_forall₂ hunrolls.expands hc
    exact ⟨y, hy⟩

/-- An expansion that fails has failed in a child, in the body of a rule with the arguments in it, or
at an invocation that is nested too deep or has a wrong number of arguments. -/
theorem expandWithin_error_induction {motive : Nat → Expr → Fault → Prop}
    (child : ∀ (depth : Nat) (c e : Expr) (f : Fault), c ∈ e.children → motive depth c f →
      motive depth e f)
    (body : ∀ (depth : Nat) (e : Expr) (name : String) (rule : Rule) (args : List Expr) (f : Fault),
      e.Unrolls rules depth name rule args →
      motive depth (rule.body.substitute (.ofParams rule.params args)) f → motive (depth + 1) e f)
    (endless : ∀ (e : Expr) (name : String) (rule : Rule), e.invocation? rules = some (name, rule) →
      motive 0 e (.endlessRule name))
    (arity : ∀ (depth : Nat) (e : Expr) (name : String) (rule : Rule),
      e.invocation? rules = some (name, rule) → e.children.length ≠ rule.params.length →
      motive (depth + 1) e (.ruleArity name rule.params.length e.children.length))
    (depth : Nat) (e : Expr) (f : Fault) (h : e.expandWithin rules depth = .error f) :
    motive depth e f := by
  induction depth using Nat.strongRecOn generalizing e f with
  | ind depth ihDepth =>
    induction e using inductionOnChildren with
    | step e ih =>
      have hchildren (hmap : e.children.mapM (expandWithin rules depth) = .error f) :
          motive depth e f := by
        obtain ⟨c, hc, hf⟩ := exists_of_mapM_eq_error hmap
        exact child depth c e f hc (ih c hc hf)
      cases hinvocation : e.invocation? rules with
      | none =>
        rw [expandWithin_of_not_invocation depth hinvocation, mapChildrenM] at h
        rcases bind_eq_error.1 h with hmap | ⟨_, _, h⟩
        · exact hchildren hmap
        · cases h
      | some found =>
        obtain ⟨name, rule⟩ := found
        cases depth with
        | zero =>
          rw [expandWithin_zero hinvocation] at h
          obtain rfl := Except.error.inj h
          exact endless e name rule hinvocation
        | succ depth =>
          by_cases harity : e.children.length = rule.params.length
          · rw [expandWithin_succ depth hinvocation harity] at h
            rcases bind_eq_error.1 h with hmap | ⟨args, hargs, h⟩
            · exact hchildren hmap
            · exact body depth e name rule args f ⟨hinvocation, harity, mapM_eq_ok.1 hargs⟩
                (ihDepth depth (Nat.lt_succ_self depth) _ f h)
          · rw [expandWithin, hinvocation] at h
            simp only [ne_eq, harity, not_false_eq_true, if_true] at h
            obtain rfl := Except.error.inj h
            exact arity depth e name rule hinvocation harity

/-! ### Expanded expressions -/

/-- No invocation of a rule is left. -/
def Expanded (rules : Rules) (e : Expr) : Prop := e.Each fun d => d.invocation? rules = none

/-- Other arguments do not turn a node into an invocation. -/
theorem invocation?_withChildren {cs : List Expr} (hlength : cs.length = e.children.length)
    (h : e.invocation? rules = none) : (e.withChildren cs).invocation? rules = none := by
  cases e with
  | call callee args keywords =>
    cases callee with
    | entry name => rfl
    | bare name =>
      cases keywords with
      | nil => exact h
      | cons keyword keywords =>
        have hdrop : (cs.drop args.length).length = keywords.length + 1 := by
          simp [hlength, children]
        obtain ⟨c, cs', hcs⟩ := List.exists_cons_of_length_eq_add_one hdrop
        simp [withChildren, hcs, invocation?]
  | _ => unfold withChildren; split <;> simp_all [invocation?]

theorem expanded_withChildren {cs : List Expr} (hlength : cs.length = e.children.length)
    (h : e.invocation? rules = none) (hcs : ∀ c ∈ cs, c.Expanded rules) :
    (e.withChildren cs).Expanded rules :=
  (each_withChildren hlength).2 ⟨invocation?_withChildren hlength h, hcs⟩

theorem expanded_expandWithin {depth : Nat} {e' : Expr}
    (h : e.expandWithin rules depth = .ok e') : e'.Expanded rules := by
  refine expandWithin_induction (motive := fun _ _ e' => e'.Expanded rules) ?_ ?_ depth e e' h
  · intro depth e cs hinvocation hcs
    exact expanded_withChildren hcs.length_eq.symm hinvocation
      (forall_right_of_forall₂ hcs fun _ _ _ hc => hc.2)
  · exact fun _ _ _ _ _ _ _ _ h => h

/-- An expanded expression is left alone. -/
theorem expandWithin_of_expanded (depth : Nat) (h : e.Expanded rules) :
    e.expandWithin rules depth = .ok e := by
  induction e using inductionOnChildren with
  | step e ih =>
    obtain ⟨he, hchildren⟩ := each_iff.1 h
    have hmap : e.children.mapM (expandWithin rules depth) = .ok e.children :=
      mapM_eq_ok.2 (List.forall₂_same.2 fun c hc => ih c hc (hchildren c hc))
    rw [expandWithin_of_not_invocation depth he, mapChildrenM, hmap, ok_bind,
      withChildren_children]
    rfl

theorem expanded_of_no_rules (e : Expr) : e.Expanded ∅ := by
  intro d _
  show d.invocation? ∅ = none
  unfold invocation?
  split <;> simp

/-! ### Properties of nodes -/

/-- The property is one of the node of an expression, whatever its children are. -/
def OfNode (P : Expr → Prop) : Prop := ∀ e cs, P e → P (e.withChildren cs)

/-- An argument is put in place of a parameter. -/
theorem mem_of_ofParams {params : List String} {args : List Expr} {name : String} {a : Expr}
    (h : Substitution.ofParams params args name = some a) : name ∈ params ∧ a ∈ args := by
  obtain ⟨before, after, hzip, -⟩ := List.lookup_eq_some_iff.1 h
  have hmem : (name, a) ∈ (params.zip args).reverse := by simp [hzip]
  exact List.of_mem_zip (List.mem_reverse.1 hmem)

section Node

variable (hP : OfNode P)

include hP

/-- A substitution brings in no node but those of the body and of what it puts in. -/
theorem each_substitute {σ : Substitution} (h : e.Each P)
    (hσ : ∀ name a, σ name = some a → a.Each P) : (e.substitute σ).Each P := by
  induction e using inductionOnChildren generalizing σ with
  | step e ih =>
    cases hvar : e.varName? with
    | some name =>
      obtain rfl := varName?_eq_some.1 hvar
      rw [substitute_var]
      cases ha : σ name with
      | none => exact h
      | some a => exact hσ name a ha
    | none =>
      obtain ⟨he, hchildren⟩ := each_iff.1 h
      rw [substitute_of_not_var σ hvar, mapChildren]
      refine (each_withChildren (by simp)).2 ⟨hP e _ he, List.forall_mem_map.2 fun c hc => ?_⟩
      exact ih c hc (hchildren c hc) fun name a ha => hσ name a (Substitution.of_without ha)

/-- An expansion brings in no node but those of the rules. -/
theorem each_expandWithin {depth : Nat} {e' : Expr}
    (hrules : ∀ (name : String) (rule : Rule), rules[name]? = some rule → rule.body.Each P)
    (h : e.expandWithin rules depth = .ok e') (he : e.Each P) : e'.Each P := by
  refine expandWithin_induction (motive := fun _ e e' => e.Each P → e'.Each P) ?_ ?_ depth e e' h he
  · intro depth e cs _ hcs he
    obtain ⟨he, hchildren⟩ := each_iff.1 he
    exact (each_withChildren hcs.length_eq.symm).2 ⟨hP e cs he,
      forall_right_of_forall₂ hcs fun c hmem _ hc => hc.2 (hchildren c hmem)⟩
  · intro depth e name rule args e' hunrolls hargs ih he
    obtain ⟨-, hchildren⟩ := each_iff.1 he
    have hargs' := forall_right_of_forall₂ hargs fun c hmem _ hc => hc (hchildren c hmem)
    exact ih (each_substitute hP (hrules name rule hunrolls.rule_eq) fun _ a ha =>
      hargs' a (mem_of_ofParams ha).2)

end Node

/-- All callees that an expression names have a property. -/
def CalleesIn (Q : Callee → Prop) (e : Expr) : Prop :=
  e.Each fun d => ∀ callee, d.callee? = some callee → Q callee

theorem ofNode_calleesIn (Q : Callee → Prop) :
    OfNode fun d => ∀ callee, d.callee? = some callee → Q callee :=
  fun e cs h callee hcallee => h callee (by simpa using hcallee)

theorem calleesIn_iff {Q : Callee → Prop} :
    e.CalleesIn Q ↔ ∀ callee, e.Mentions callee → Q callee := by
  constructor
  · rintro h callee ⟨d, hd, hcallee⟩
    exact h d hd callee hcallee
  · exact fun h d hd callee hcallee => h callee ⟨d, hd, hcallee⟩

/-- All variables that an expression reads have a property. -/
def VariablesIn (V : String → Prop) (e : Expr) : Prop :=
  e.Each fun d => ∀ name, d.varName? = some name → V name

theorem ofNode_variablesIn (V : String → Prop) :
    OfNode fun d => ∀ name, d.varName? = some name → V name :=
  fun e cs h name hname => h name (by simpa using hname)

theorem variablesIn_iff {V : String → Prop} :
    e.VariablesIn V ↔ ∀ name ∈ e.dependencyNames, V name := by
  constructor
  · exact fun h name hname => h _ (mem_dependencyNames.1 hname) name rfl
  · intro h d hd name hname
    obtain rfl := varName?_eq_some.1 hname
    exact h name (mem_dependencyNames.2 hd)

end Expr

/-! ### Kernels -/

namespace Kernel

variable {k e : Kernel}

theorem expand_eq_ok :
    k.expand = .ok e ↔
      ∃ is, List.Forall₂ (Instruction.Maps fun x y => x.expand k.rules = .ok y) k.instructions is ∧
        e = { k with instructions := is, rules := ∅ } := by
  unfold expand
  by_cases hrules : k.rules.isEmpty
  · obtain ⟨name, args, temporaries, instructions, inames, params, indexType, rules, sm, fm⟩ := k
    obtain rfl : rules = ∅ := Std.ExtTreeMap.isEmpty_iff.1 hrules
    have hexpand (x : Expr) : x.expand ∅ = .ok x :=
      Expr.expandWithin_of_expanded _ (Expr.expanded_of_no_rules x)
    simp only [hrules, if_true, hexpand, Except.ok.injEq]
    constructor
    · intro h
      refine ⟨instructions, List.forall₂_same.2 fun i _ => .refl (fun _ => rfl) i, ?_⟩
      exact (Except.ok.inj h).symm
    · rintro ⟨is, his, rfl⟩
      have his : List.Forall₂ Eq instructions is := his.imp fun _ _ h => h.eq.symm
      rw [List.forall₂_eq_eq_eq] at his
      rw [his]
      rfl
  · simp only [hrules, Bool.false_eq_true, if_false]
    rw [bind_eq_ok]
    refine exists_congr fun is => ?_
    rw [mapM_eq_ok]
    simp only [Instruction.mapExpressionsM_eq_ok]
    exact and_congr_right fun _ => ⟨fun h => (Except.ok.inj h).symm, fun h => h ▸ rfl⟩

theorem name_of_expand (h : k.expand = .ok e) : e.name = k.name := by
  obtain ⟨is, -, rfl⟩ := expand_eq_ok.1 h
  rfl

theorem ids_of_expand (h : k.expand = .ok e) :
    e.instructions.map (·.id) = k.instructions.map (·.id) := by
  obtain ⟨is, his, rfl⟩ := expand_eq_ok.1 h
  exact Instruction.Maps.ids_eq his

theorem declarations_of_expand (h : k.expand = .ok e) : e.declarations = k.declarations := by
  obtain ⟨is, -, rfl⟩ := expand_eq_ok.1 h
  rfl

theorem rules_of_expand (h : k.expand = .ok e) : e.rules = ∅ := by
  obtain ⟨is, -, rfl⟩ := expand_eq_ok.1 h
  rfl

/-- A kernel without rules is its own expansion. -/
theorem expand_of_no_rules (h : k.rules = ∅) : k.expand = .ok k := by
  unfold expand
  rw [h, if_pos (by simp)]
  rfl

/-- The types of the variables take no part in an expansion. -/
theorem expand_withTypes (h : k.expand = .ok e) (types : List (String × ElementType)) :
    (k.withTypes types).expand = .ok (e.withTypes types) := by
  obtain ⟨is, his, rfl⟩ := expand_eq_ok.1 h
  rw [withTypes_withProgram k is ∅]
  refine expand_eq_ok.2 ⟨is, ?_, rfl⟩
  rw [instructions_withTypes, rules_withTypes]
  exact his

/-- The entries that a kernel calls are those that its expressions and its rules name. -/
theorem mem_calledEntries {name : String} :
    name ∈ k.calledEntries ↔
      (∃ i ∈ k.instructions, ∃ x ∈ i.expressions, x.Mentions (.entry name)) ∨
        ∃ (rule : String) (r : Rule), k.rules[rule]? = some r ∧ r.body.Mentions (.entry name) := by
  have hmentions (x : Expr) : (∃ d ∈ x.calls, entryName? d = some name) ↔
      x.Mentions (.entry name) := by
    refine exists_congr fun d => ?_
    rw [Expr.mem_calls, and_assoc]
    refine and_congr_right fun _ => ?_
    cases d with
    | call callee _ _ => cases callee <;> simp [Expr.isCall, entryName?, Expr.callee?]
    | _ => simp [entryName?, Expr.callee?]
  unfold calledEntries
  rw [Std.ExtTreeSet.mem_ofList, List.contains_iff_mem, List.mem_flatMap]
  simp only [List.mem_filterMap, hmentions, List.mem_append, List.mem_flatMap, List.mem_map,
    Prod.exists, Std.ExtTreeMap.mem_toList_iff_getElem?_eq_some]
  constructor
  · rintro ⟨x, ⟨i, hi, hx⟩ | ⟨rule, r, hr, rfl⟩, h⟩
    · exact .inl ⟨i, hi, x, hx, h⟩
    · exact .inr ⟨rule, r, hr, h⟩
  · rintro (⟨i, hi, x, hx, h⟩ | ⟨rule, r, hr, h⟩)
    · exact ⟨x, .inl ⟨i, hi, hx⟩, h⟩
    · exact ⟨r.body, .inr ⟨rule, r, hr, rfl⟩, h⟩

/-- Every expression of an expansion is the expansion of one of the kernel. -/
theorem exists_of_mem_expand (h : k.expand = .ok e) {i : Instruction} (hi : i ∈ e.instructions)
    {x : Expr} (hx : x ∈ i.expressions) :
    ∃ j ∈ k.instructions, ∃ y ∈ j.expressions, y.expand k.rules = .ok x := by
  obtain ⟨is, his, rfl⟩ := expand_eq_ok.1 h
  have hall : ∀ i ∈ is, ∀ x ∈ i.expressions,
      ∃ j ∈ k.instructions, ∃ y ∈ j.expressions, y.expand k.rules = .ok x :=
    forall_right_of_forall₂ his fun j hj i hij =>
      forall_right_of_forall₂ hij.expressions fun y hy x hxy => ⟨j, hj, y, hy, hxy⟩
  exact hall i hi x hx

/-- No invocation is left in an expansion. -/
theorem expanded_of_expand (h : k.expand = .ok e) {i : Instruction} (hi : i ∈ e.instructions)
    {x : Expr} (hx : x ∈ i.expressions) : x.Expanded k.rules := by
  obtain ⟨_, _, y, _, hy⟩ := exists_of_mem_expand h hi hx
  exact Expr.expanded_expandWithin hy

/-- An expansion names no entries but those that the kernel calls. -/
theorem entries_of_expand (h : k.expand = .ok e) {i : Instruction} (hi : i ∈ e.instructions)
    {x : Expr} (hx : x ∈ i.expressions) {name : String} (hname : x.Mentions (.entry name)) :
    name ∈ k.calledEntries := by
  obtain ⟨j, hj, y, hy, hyx⟩ := exists_of_mem_expand h hi hx
  have hx : x.CalleesIn fun callee => ∀ name, callee = .entry name → name ∈ k.calledEntries := by
    refine Expr.each_expandWithin (Expr.ofNode_calleesIn _) (fun rule r hr => ?_) hyx ?_
    · refine Expr.calleesIn_iff.2 ?_
      rintro _ hmentions name rfl
      exact mem_calledEntries.2 (.inr ⟨rule, r, hr, hmentions⟩)
    · refine Expr.calleesIn_iff.2 ?_
      rintro _ hmentions name rfl
      exact mem_calledEntries.2 (.inl ⟨j, hj, y, hy, hmentions⟩)
  exact Expr.calleesIn_iff.1 hx _ hname name rfl

end Kernel

end KernelTyping
