import KernelTyping.Proofs.Expansion
import KernelTyping.Proofs.Expr.Parts
import KernelTyping.Proofs.Table.Growth

/-!
# KernelTyping.Proofs.Expansion.Nesting — when an expansion succeeds

An expansion comes to an end.  What it leaves is the one expression that the rules give
(`ExpandsTo`), a normal form, or it fails for one of two reasons (`expand_normal`): a wrong number of
arguments, or bodies nested too deep.  How deep bodies nest is read off the rules: `Nests` follows
invocations from an expression into the bodies of the rules.

* `length_le_of_expandWithin`: where an expansion succeeds, no rules nest deeper than it allows.
* `rejects_of_expandWithin`: where it fails, they do, or some invocation passes a wrong number of
  arguments.

So with the right numbers of arguments an expansion fails if and only if rules nest too deep.  Rules
that are not more than the allowed depth nest too deep only if one of them expands into itself
(`forall_nests_iff`).
-/

namespace KernelTyping

namespace Expr

variable {rules : Rules} {e : Expr} {name : String} {args : List Expr} {n : Nat}

/-! ### Invocations -/

/-- A rule of that name is invoked somewhere in the expression, with these arguments. -/
def Applies (rules : Rules) (e : Expr) (name : String) (args : List Expr) : Prop :=
  (∃ rule, rules[name]? = some rule) ∧ (call (.bare name) args []).Within e

theorem applies_iff :
    e.Applies rules name args ↔
      (∃ rule, e.invocation? rules = some (name, rule)) ∧ e.children = args ∨
        ∃ c ∈ e.children, c.Applies rules name args := by
  unfold Applies
  simp only [invocation?_eq_some]
  constructor
  · rintro ⟨⟨rule, hrule⟩, hargs⟩
    rcases within_iff.1 hargs with rfl | ⟨c, hc, hargs⟩
    · exact .inl ⟨⟨rule, args, rfl, hrule⟩, by simp [children]⟩
    · exact .inr ⟨c, hc, ⟨rule, hrule⟩, hargs⟩
  · rintro (⟨⟨rule, passed, rfl, hrule⟩, rfl⟩ | ⟨c, hc, hrule, hargs⟩)
    · simp only [children, List.map_nil, List.append_nil]
      exact ⟨⟨rule, hrule⟩, .refl⟩
    · exact ⟨hrule, within_iff.2 (.inr ⟨c, hc, hargs⟩)⟩

theorem Applies.of_mem_children {c : Expr} (hc : c ∈ e.children)
    (h : c.Applies rules name args) : e.Applies rules name args := applies_iff.2 (.inr ⟨c, hc, h⟩)

theorem not_applies_var (x : String) : ¬(var x).Applies rules name args := by
  rw [applies_iff]
  simp [invocation?, children]

/-- A rule of that name is invoked somewhere in the expression, with `n` arguments. -/
def Invokes (rules : Rules) (e : Expr) (name : String) (n : Nat) : Prop :=
  ∃ args, e.Applies rules name args ∧ args.length = n

theorem Invokes.of_mem_children {c : Expr} (hc : c ∈ e.children) (h : c.Invokes rules name n) :
    e.Invokes rules name n := h.imp fun _ => And.imp_left (.of_mem_children hc)

theorem invokes_iff :
    e.Invokes rules name n ↔
      (∃ rule, e.invocation? rules = some (name, rule)) ∧ e.children.length = n ∨
        ∃ c ∈ e.children, c.Invokes rules name n := by
  constructor
  · rintro ⟨args, hargs, rfl⟩
    rcases applies_iff.1 hargs with ⟨hrule, rfl⟩ | ⟨c, hc, hargs⟩
    · exact .inl ⟨hrule, rfl⟩
    · exact .inr ⟨c, hc, args, hargs, rfl⟩
  · rintro (⟨hrule, rfl⟩ | ⟨c, hc, h⟩)
    · exact ⟨_, applies_iff.2 (.inl ⟨hrule, rfl⟩), rfl⟩
    · exact .of_mem_children hc h

/-- Nothing is invoked in an expanded expression. -/
theorem expanded_iff : e.Expanded rules ↔ ∀ name args, ¬e.Applies rules name args := by
  unfold Expanded Each Applies
  constructor
  · rintro h name args ⟨⟨rule, hrule⟩, hargs⟩
    have hnone : (call (.bare name) args []).invocation? rules = none := h _ (mem_subterms.2 hargs)
    rw [invocation?_eq_some.2 ⟨args, rfl, hrule⟩] at hnone
    cases hnone
  · intro h d hd
    refine Option.eq_none_iff_forall_ne_some.2 fun ⟨name, rule⟩ hinvocation => ?_
    obtain ⟨args, rfl, hrule⟩ := invocation?_eq_some.1 hinvocation
    exact h name args ⟨⟨rule, hrule⟩, mem_subterms.1 hd⟩

@[simp] theorem invocation?_mapChildren (f : Expr → Expr) (e : Expr) :
    (e.mapChildren f).invocation? rules = e.invocation? rules := by
  cases h : e.invocation? rules with
  | none => exact invocation?_withChildren (by simp) h
  | some found =>
    obtain ⟨name, rule⟩ := found
    obtain ⟨args, rfl, hrule⟩ := invocation?_eq_some.1 h
    refine invocation?_eq_some.2 ⟨args.map f, ?_, hrule⟩
    simp [mapChildren, children, withChildren, List.take_of_length_le]

/-- What a body with expanded arguments in it invokes is invoked in the body, and the arguments are
put into what is passed there. -/
theorem applies_of_substitute {σ : Substitution} (hσ : ∀ x a, σ x = some a → a.Expanded rules)
    (h : (e.substitute σ).Applies rules name args) :
    ∃ (τ : Substitution) (passed : List Expr), e.Applies rules name passed ∧
      args = passed.map (substitute τ) ∧ ∀ x a, τ x = some a → σ x = some a := by
  induction e using inductionOnChildren generalizing σ with
  | step e ih =>
    cases hvar : e.varName? with
    | some x =>
      obtain rfl := varName?_eq_some.1 hvar
      rw [substitute_var] at h
      cases ha : σ x with
      | none =>
        rw [ha] at h
        exact absurd h (not_applies_var x)
      | some a =>
        rw [ha] at h
        exact absurd h (expanded_iff.1 (hσ x a ha) name args)
    | none =>
      rw [substitute_of_not_var σ hvar, applies_iff, invocation?_mapChildren,
        children_mapChildren] at h
      rcases h with ⟨hrule, rfl⟩ | ⟨c', hc', h⟩
      · exact ⟨_, e.children, applies_iff.2 (.inl ⟨hrule, rfl⟩), rfl, fun x a =>
          Substitution.of_without⟩
      · obtain ⟨c, hc, rfl⟩ := List.mem_map.1 hc'
        obtain ⟨τ, passed, hpassed, rfl, hτ⟩ :=
          ih c hc (fun x a ha => hσ x a (Substitution.of_without ha)) h
        exact ⟨τ, passed, .of_mem_children hc hpassed, rfl, fun x a ha =>
          Substitution.of_without (hτ x a ha)⟩

/-- A substitution takes no invocation away. -/
theorem Invokes.substitute {σ : Substitution} (h : e.Invokes rules name n) :
    (e.substitute σ).Invokes rules name n := by
  induction e using inductionOnChildren generalizing σ with
  | step e ih =>
    cases hvar : e.varName? with
    | some x =>
      obtain rfl := varName?_eq_some.1 hvar
      obtain ⟨args, h, -⟩ := h
      exact absurd h (not_applies_var x)
    | none =>
      rw [substitute_of_not_var σ hvar, invokes_iff, invocation?_mapChildren,
        children_mapChildren, List.length_map]
      rcases invokes_iff.1 h with h | ⟨c, hc, h⟩
      · exact .inl h
      · exact .inr ⟨_, List.mem_map_of_mem hc, ih c hc h⟩

/-- Expanded arguments bring no invocation into a body and take none away. -/
theorem invokes_substitute {σ : Substitution} (hσ : ∀ x a, σ x = some a → a.Expanded rules) :
    (e.substitute σ).Invokes rules name n ↔ e.Invokes rules name n := by
  constructor
  · rintro ⟨args, h, rfl⟩
    obtain ⟨_, passed, hpassed, rfl, -⟩ := applies_of_substitute hσ h
    exact ⟨passed, hpassed, (List.length_map _).symm⟩
  · exact fun h => h.substitute

/-- What is put into the body of a rule is expanded. -/
theorem Unrolls.expanded {depth : Nat} {rule : Rule} (h : e.Unrolls rules depth name rule args)
    (x : String) (a : Expr) (ha : Substitution.ofParams rule.params args x = some a) :
    a.Expanded rules := by
  have hargs : ∀ a ∈ args, a.Expanded rules :=
    forall_right_of_forall₂ h.expands fun _ _ _ ha => expanded_expandWithin ha
  exact hargs a (mem_of_ofParams ha).2

/-! ### Nested rules -/

/-- The rules of these names nest in the expression: the first is invoked in it, and each other in
the body of the one before. -/
def Nests (rules : Rules) : Expr → List String → Prop
  | _, [] => True
  | e, name :: names =>
    (∃ n, e.Invokes rules name n) ∧ ∃ rule, rules[name]? = some rule ∧ Nests rules rule.body names

variable {names : List String}

theorem nests_congr {d : Expr} (h : ∀ name n, d.Invokes rules name n → e.Invokes rules name n)
    (hd : d.Nests rules names) : e.Nests rules names := by
  cases names with
  | nil => trivial
  | cons name names => exact ⟨hd.1.imp fun n => h name n, hd.2⟩

/-- Where an expansion succeeds, no rules nest deeper than it allows. -/
theorem length_le_of_expandWithin {depth : Nat} {x : Expr}
    (h : e.expandWithin rules depth = .ok x) (hnests : e.Nests rules names) :
    names.length ≤ depth := by
  refine expandWithin_induction
    (motive := fun depth e _ => ∀ names, e.Nests rules names → names.length ≤ depth)
    ?_ ?_ depth e x h names hnests
  · intro depth e cs hinvocation hcs names hnests
    cases names with
    | nil => exact Nat.zero_le _
    | cons name names =>
      obtain ⟨⟨n, hname⟩, hbody⟩ := hnests
      rcases invokes_iff.1 hname with ⟨⟨rule, hrule⟩, -⟩ | ⟨c, hc, hname⟩
      · rw [hinvocation] at hrule
        cases hrule
      · obtain ⟨_, -, -, hbelow⟩ := exists_right_of_forall₂ hcs hc
        exact hbelow _ ⟨⟨n, hname⟩, hbody⟩
  · intro depth e first rule args e' hunrolls hargs ih names hnests
    cases names with
    | nil => exact Nat.zero_le _
    | cons name names =>
      obtain ⟨⟨n, hname⟩, r, hr, hbody⟩ := hnests
      rcases invokes_iff.1 hname with ⟨⟨rule', hrule⟩, -⟩ | ⟨c, hc, hname⟩
      · -- the body with the arguments in it invokes what the body does
        obtain ⟨rfl, rfl⟩ : first = name ∧ rule = rule' := by simpa [hunrolls.invokes] using hrule
        obtain rfl := Option.some.inj (hunrolls.rule_eq.symm.trans hr)
        have hle := ih names (nests_congr (fun _ _ h => h.substitute) hbody)
        simpa using hle
      · obtain ⟨_, -, hbelow⟩ := exists_right_of_forall₂ hargs hc
        exact hbelow _ ⟨⟨n, hname⟩, r, hr, hbody⟩

/-- Why an expansion that allows bodies to nest up to `depth` deep fails. -/
inductive Rejects (rules : Rules) (depth : Nat) (e : Expr) : Fault → Prop
  /-- Rules nest deeper, and the last of them is named. -/
  | endless {names : List String} {name : String} : e.Nests rules (names ++ [name]) →
      names.length = depth → Rejects rules depth e (.endlessRule name)
  /-- An invocation in the expression or in the body of a rule passes a wrong number of
  arguments. -/
  | arity {name : String} {rule : Rule} {n : Nat} : rules[name]? = some rule →
      n ≠ rule.params.length →
      (e.Invokes rules name n ∨
        ∃ (other : String) (r : Rule), rules[other]? = some r ∧ r.body.Invokes rules name n) →
      Rejects rules depth e (.ruleArity name rule.params.length n)

theorem Rejects.of_mem_children {depth : Nat} {c : Expr} {f : Fault} (hc : c ∈ e.children)
    (h : c.Rejects rules depth f) : e.Rejects rules depth f := by
  cases h with
  | endless hnests hlength =>
    exact .endless (nests_congr (fun _ _ => .of_mem_children hc) hnests) hlength
  | arity hrule hne hinvokes => exact .arity hrule hne (hinvokes.imp (.of_mem_children hc) id)

theorem invokes_of_invocation? {rule : Rule} (h : e.invocation? rules = some (name, rule)) :
    e.Invokes rules name e.children.length ∧ rules[name]? = some rule := by
  obtain ⟨_, _, hrule⟩ := invocation?_eq_some.1 h
  exact ⟨invokes_iff.2 (.inl ⟨⟨rule, h⟩, rfl⟩), hrule⟩

theorem rejects_of_expandWithin {depth : Nat} {f : Fault}
    (h : e.expandWithin rules depth = .error f) : e.Rejects rules depth f := by
  refine expandWithin_error_induction (motive := fun depth e f => e.Rejects rules depth f)
    ?_ ?_ ?_ ?_ depth e f h
  · exact fun depth c e f hc hf => hf.of_mem_children hc
  · intro depth e name rule args f hunrolls hf
    obtain ⟨hname, hrule⟩ := invokes_of_invocation? hunrolls.invokes
    have hbody (name : String) (n : Nat)
        (h : (rule.body.substitute (.ofParams rule.params args)).Invokes rules name n) :
        rule.body.Invokes rules name n := (invokes_substitute hunrolls.expanded).1 h
    cases hf with
    | @endless names last hnests hlength =>
      have hnests : e.Nests rules (name :: names ++ [last]) :=
        ⟨⟨_, hname⟩, rule, hrule, nests_congr hbody hnests⟩
      exact .endless hnests (congrArg (· + 1) hlength)
    | arity hother hne hinvokes =>
      refine .arity hother hne (.inr ?_)
      rcases hinvokes with hinvokes | hinvokes
      · exact ⟨name, rule, hrule, hbody _ _ hinvokes⟩
      · exact hinvokes
  · intro e name rule hinvocation
    obtain ⟨hname, hrule⟩ := invokes_of_invocation? hinvocation
    have hnests : e.Nests rules ([] ++ [name]) := ⟨⟨_, hname⟩, rule, hrule, trivial⟩
    exact .endless hnests rfl
  · intro depth e name rule hinvocation harity
    obtain ⟨hname, hrule⟩ := invokes_of_invocation? hinvocation
    exact .arity hrule harity (.inl hname)

/-! ### Normal forms -/

/-- What an expression expands to, however deep rules nest.  A node that invokes no rule has its
children expanded.  For an invocation stands the body of the rule, expanded after the expanded
arguments are put in place of its parameters. -/
inductive ExpandsTo (rules : Rules) : Expr → Expr → Prop
  | node {e : Expr} {cs : List Expr} (hinvocation : e.invocation? rules = none)
      (hcs : List.Forall₂ (ExpandsTo rules) e.children cs) : ExpandsTo rules e (e.withChildren cs)
  | unroll {e x : Expr} {name : String} {rule : Rule} {args : List Expr}
      (hinvocation : e.invocation? rules = some (name, rule))
      (harity : e.children.length = rule.params.length)
      (hargs : List.Forall₂ (ExpandsTo rules) e.children args)
      (hbody : ExpandsTo rules (rule.body.substitute (.ofParams rule.params args)) x) :
      ExpandsTo rules e x

theorem expandsTo_of_expandWithin {depth : Nat} {x : Expr}
    (h : e.expandWithin rules depth = .ok x) : e.ExpandsTo rules x := by
  refine expandWithin_induction (motive := fun _ e x => e.ExpandsTo rules x) ?_ ?_ depth e x h
  · exact fun _ e cs hinvocation hcs => .node hinvocation (hcs.imp fun _ _ hc => hc.2)
  · exact fun _ e name rule args x hunrolls hargs hx =>
      .unroll hunrolls.invokes hunrolls.arity hargs hx

/-- An expression expands to one at most. -/
theorem ExpandsTo.unique {x y : Expr} (h : e.ExpandsTo rules x) (h' : e.ExpandsTo rules y) :
    x = y := by
  -- the second motive is for the children of a node, one by one
  refine @ExpandsTo.rec rules (fun e x _ => ∀ y, e.ExpandsTo rules y → x = y)
    (fun es xs _ => ∀ ys, List.Forall₂ (ExpandsTo rules) es ys → xs = ys)
    ?node ?unroll ?nil ?cons e x h y h'
  case node =>
    rintro e cs hinvocation - ih _ (⟨-, hds⟩ | ⟨hsome, -, -, -⟩)
    · rw [ih _ hds]
    · rw [hinvocation] at hsome
      cases hsome
  case unroll =>
    rintro e x name rule args hinvocation - - - ihArgs ihBody y
      (⟨hnone, -⟩ | ⟨hsome, -, hargs, hbody⟩)
    · rw [hinvocation] at hnone
      cases hnone
    · obtain ⟨rfl, rfl⟩ : name = _ ∧ rule = _ := by simpa [hinvocation] using hsome
      obtain rfl := ihArgs _ hargs
      exact ihBody _ hbody
  case nil =>
    rintro _ ⟨⟩
    rfl
  case cons =>
    rintro e x es xs - - ih ihs _ (_ | ⟨hy, hys⟩)
    rw [ih _ hy, ihs _ hys]

/-- **Normal forms.**  An expansion comes to an end.  Either it fails, for one of the two reasons, or
it gives the one expression that the rules give.  In that no rule is invoked at any place, and another
expansion leaves it as it is. -/
theorem expand_normal (rules : Rules) (e : Expr) :
    (∃ x, e.expand rules = .ok x ∧
      (∀ y, e.ExpandsTo rules y ↔ y = x) ∧
      (∀ name rule args, rules[name]? = some rule → ¬(call (.bare name) args []).Within x) ∧
      x.expand rules = .ok x) ∨
    ∃ f, e.expand rules = .error f ∧ e.Rejects rules expansionDepth f := by
  cases h : e.expand rules with
  | error f => exact .inr ⟨f, rfl, rejects_of_expandWithin h⟩
  | ok x =>
    have hx : e.ExpandsTo rules x := expandsTo_of_expandWithin h
    have hexpanded : x.Expanded rules := expanded_expandWithin h
    refine .inl ⟨x, rfl, fun y => ?_, fun name rule args hrule hargs => ?_,
      expandWithin_of_expanded _ hexpanded⟩
    · constructor
      · exact fun hy => hy.unique hx
      · rintro rfl
        exact hx
    · exact expanded_iff.1 hexpanded name args ⟨⟨rule, hrule⟩, hargs⟩

end Expr

/-! ### Rules that expand into themselves -/

namespace Rules

/-- A rule is invoked in the body of another one. -/
def Leads (rules : Rules) (name other : String) : Prop :=
  ∃ rule, rules[name]? = some rule ∧ ∃ n, rule.body.Invokes rules other n

/-- The rule expands into itself. -/
def Recursive (rules : Rules) (name : String) : Prop := Relation.TransGen rules.Leads name name

end Rules

namespace Expr

variable {rules : Rules} {e : Expr} {name : String} {names : List String}

/-- The rule is invoked in the expression, or in the body of a rule that it comes to. -/
def ComesTo (rules : Rules) (e : Expr) (name : String) : Prop :=
  ∃ first, (∃ n, e.Invokes rules first n) ∧ Relation.ReflTransGen rules.Leads first name

theorem ComesTo.of_mem_children {c : Expr} (hc : c ∈ e.children) (h : c.ComesTo rules name) :
    e.ComesTo rules name := by
  obtain ⟨first, ⟨n, hfirst⟩, hpath⟩ := h
  exact ⟨first, ⟨n, .of_mem_children hc hfirst⟩, hpath⟩

theorem ComesTo.of_body {rule : Rule} {other : String} (hrule : rules[name]? = some rule)
    (h : rule.body.ComesTo rules other) : Relation.TransGen rules.Leads name other := by
  obtain ⟨first, hfirst, hpath⟩ := h
  exact .head' ⟨rule, hrule, hfirst⟩ hpath

theorem Nests.comesTo (h : e.Nests rules names) : ∀ name ∈ names, e.ComesTo rules name := by
  induction names generalizing e with
  | nil => simp
  | cons first names ih =>
    obtain ⟨hfirst, rule, hrule, hbody⟩ := h
    intro name hname
    rcases List.mem_cons.1 hname with rfl | hname
    · exact ⟨name, hfirst, .refl⟩
    · exact ⟨first, hfirst, (ComesTo.of_body hrule (ih hbody name hname)).to_reflTransGen⟩

/-- Without recursion each rule nests in the others once. -/
theorem Nests.nodup (hacyclic : ∀ name, e.ComesTo rules name → ¬rules.Recursive name)
    (h : e.Nests rules names) : names.Nodup := by
  induction names generalizing e with
  | nil => exact List.nodup_nil
  | cons first names ih =>
    have hfirst := h.comesTo first List.mem_cons_self
    obtain ⟨hinvokes, rule, hrule, hbody⟩ := h
    refine List.nodup_cons.2 ⟨fun hmem => ?_, ih (fun name hname => ?_) hbody⟩
    · exact hacyclic first hfirst (ComesTo.of_body hrule (hbody.comesTo first hmem))
    · exact hacyclic name ⟨first, hinvokes, (ComesTo.of_body hrule hname).to_reflTransGen⟩

theorem Nests.subset_keys (h : e.Nests rules names) : names ⊆ rules.keys := by
  induction names generalizing e with
  | nil => simp
  | cons first names ih =>
    obtain ⟨-, rule, hrule, hbody⟩ := h
    refine List.cons_subset.2 ⟨?_, ih hbody⟩
    rw [Std.ExtTreeMap.mem_keys, Std.ExtTreeMap.mem_iff_isSome_getElem?, hrule]
    rfl

/-- From a rule on the way to itself, rules nest as deep as one likes. -/
theorem exists_nests_of_transGen {last : String} (hlast : rules.Recursive last)
    (h : Relation.TransGen rules.Leads name last) (n : Nat) :
    ∃ rule names, rules[name]? = some rule ∧ rule.body.Nests rules names ∧ names.length = n := by
  induction n generalizing name with
  | zero =>
    obtain ⟨_, ⟨rule, hrule, -⟩, -⟩ := Relation.TransGen.head'_iff.1 h
    exact ⟨rule, [], hrule, trivial, rfl⟩
  | succ n ih =>
    obtain ⟨next, ⟨rule, hrule, hnext⟩, hpath⟩ := Relation.TransGen.head'_iff.1 h
    obtain ⟨r, names, hr, hnests, hlength⟩ := ih (.trans_right hpath hlast)
    exact ⟨rule, next :: names, hrule, ⟨hnext, r, hr, hnests⟩, congrArg (· + 1) hlength⟩

theorem ComesTo.exists_nests (h : e.ComesTo rules name) (hrecursive : rules.Recursive name)
    (n : Nat) : ∃ names, e.Nests rules names ∧ names.length = n + 1 := by
  obtain ⟨first, hfirst, hpath⟩ := h
  obtain ⟨rule, names, hrule, hnests, hlength⟩ :=
    exists_nests_of_transGen hrecursive (.trans_right hpath hrecursive) n
  exact ⟨first :: names, ⟨hfirst, rule, hrule, hnests⟩, congrArg (· + 1) hlength⟩

/-- Where an expansion succeeds, it comes to no rule that expands into itself. -/
theorem not_recursive_of_expandWithin {depth : Nat} {x : Expr}
    (h : e.expandWithin rules depth = .ok x) (hname : e.ComesTo rules name) :
    ¬rules.Recursive name := by
  intro hrecursive
  obtain ⟨names, hnests, hlength⟩ := hname.exists_nests hrecursive depth
  have hle := length_le_of_expandWithin h hnests
  omega

/-- Rules that are not more than the allowed depth nest deeper only where one expands into itself. -/
theorem forall_nests_iff {depth : Nat} (hsize : rules.size ≤ depth) :
    (∀ names, e.Nests rules names → names.length ≤ depth) ↔
      ∀ name, e.ComesTo rules name → ¬rules.Recursive name := by
  constructor
  · intro hall name hname hrecursive
    obtain ⟨names, hnests, hlength⟩ := hname.exists_nests hrecursive depth
    have hle := hall names hnests
    omega
  · intro hacyclic names hnests
    have hle := ((hnests.nodup hacyclic).subperm hnests.subset_keys).length_le
    rw [Std.ExtTreeMap.length_keys] at hle
    exact Nat.le_trans hle hsize

/-! ### Success -/

/-- Every invocation in the expression passes as many arguments as the rule has parameters. -/
def ArgumentsFit (rules : Rules) (e : Expr) : Prop :=
  ∀ (name : String) (rule : Rule) (n : Nat), rules[name]? = some rule →
    e.Invokes rules name n → n = rule.params.length

/-- **Which expansions succeed.**  If all invocations pass the right number of arguments, then an
expansion succeeds exactly if no more rules nest than may, and else it says that a rule expands into
itself.  As long as there are no more rules than may nest, that is so exactly for rules that do. -/
theorem expand_succeeds_iff
    (hrules : ∀ (name : String) (rule : Rule), rules[name]? = some rule →
      rule.body.ArgumentsFit rules)
    (he : e.ArgumentsFit rules) :
    ((∃ x, e.expand rules = .ok x) ↔
      ∀ names, e.Nests rules names → names.length ≤ expansionDepth) ∧
    (rules.size ≤ expansionDepth →
      ((∃ x, e.expand rules = .ok x) ↔ ∀ name, e.ComesTo rules name → ¬rules.Recursive name)) ∧
    ∀ f, e.expand rules = .error f → ∃ name, f = .endlessRule name := by
  have hendless {f : Fault} (h : e.expand rules = .error f) : ∃ names name,
      e.Nests rules (names ++ [name]) ∧ names.length = expansionDepth ∧ f = .endlessRule name := by
    cases rejects_of_expandWithin h with
    | endless hnests hlength => exact ⟨_, _, hnests, hlength, rfl⟩
    | arity hrule hne hinvokes =>
      rcases hinvokes with hinvokes | ⟨other, r, hr, hinvokes⟩
      · exact absurd (he _ _ _ hrule hinvokes) hne
      · exact absurd (hrules other r hr _ _ _ hrule hinvokes) hne
  have hsucceeds : (∃ x, e.expand rules = .ok x) ↔
      ∀ names, e.Nests rules names → names.length ≤ expansionDepth := by
    constructor
    · exact fun ⟨x, hx⟩ names hnests => length_le_of_expandWithin hx hnests
    · intro hall
      cases h : e.expand rules with
      | ok x => exact ⟨x, rfl⟩
      | error f =>
        obtain ⟨names, name, hnests, hlength, -⟩ := hendless h
        have hle := hall _ hnests
        rw [List.length_append, List.length_singleton] at hle
        omega
  refine ⟨hsucceeds, fun hsize => hsucceeds.trans (forall_nests_iff hsize), fun f hf => ?_⟩
  obtain ⟨_, name, -, -, rfl⟩ := hendless hf
  exact ⟨name, rfl⟩

end Expr

/-! ### Towers of rules -/

namespace Tower

open KernelTyping.Expr

/-- The name of the rule on a level. -/
def level (i : Nat) : String := Table.candidate "r" i

/-- One, seen from that many levels above it. -/
def top : Nat → Expr
  | 0 => .int 1
  | i + 1 => .call (.bare (level i)) [] []

/-- Rules on that many levels, each of which invokes the one below. -/
def rules : Nat → Rules
  | 0 => ∅
  | n + 1 => (rules n).insert (level n) ⟨[], top n⟩

variable {n i : Nat} {name : String}

theorem getElem?_rules {rule : Rule} :
    (rules n)[name]? = some rule ↔ ∃ i < n, name = level i ∧ rule = ⟨[], top i⟩ := by
  induction n with
  | zero => simp [rules]
  | succ n ih =>
    rw [rules, Std.ExtTreeMap.getElem?_insert]
    simp only [Std.LawfulEqOrd.compare_eq_iff_eq]
    by_cases hname : level n = name
    · subst hname
      rw [if_pos rfl, Option.some.injEq]
      constructor
      · rintro rfl
        exact ⟨n, Nat.lt_succ_self n, rfl, rfl⟩
      · rintro ⟨i, -, hi, rfl⟩
        rw [Table.candidate_injective hi]
    · rw [if_neg hname, ih]
      refine exists_congr fun i => and_congr_left fun ⟨hi, _⟩ => ?_
      have hne : i ≠ n := fun h => hname (by rw [hi, h])
      omega

theorem eq_of_invokes_top {k : Nat} (h : (top i).Invokes (rules n) name k) :
    ∃ j, i = j + 1 ∧ name = level j ∧ k = 0 := by
  cases i with
  | zero => simpa [top, int, invocation?, children] using invokes_iff.1 h
  | succ j =>
    rcases invokes_iff.1 h with ⟨⟨rule, hrule⟩, hk⟩ | ⟨c, hc, -⟩
    · obtain ⟨args, heq, -⟩ := invocation?_eq_some.1 hrule
      cases heq
      exact ⟨j, rfl, rfl, hk.symm⟩
    · cases hc

theorem argumentsFit_top : (top i).ArgumentsFit (rules n) := by
  intro name rule k hrule h
  obtain ⟨-, -, -, rfl⟩ := eq_of_invokes_top h
  obtain ⟨-, -, -, rfl⟩ := getElem?_rules.1 hrule
  rfl

theorem argumentsFit_rules (name : String) (rule : Rule) (h : (rules n)[name]? = some rule) :
    rule.body.ArgumentsFit (rules n) := by
  obtain ⟨i, -, -, rfl⟩ := getElem?_rules.1 h
  exact argumentsFit_top

/-- The rules lead down. -/
theorem lt_of_transGen_leads {other : String}
    (h : Relation.TransGen (rules n).Leads name other) :
    ∃ i j, name = level i ∧ other = level j ∧ j < i := by
  have hleads {name other : String} (h : (rules n).Leads name other) :
      ∃ i j, name = level i ∧ other = level j ∧ j < i := by
    obtain ⟨rule, hrule, k, hother⟩ := h
    obtain ⟨i, -, rfl, rfl⟩ := getElem?_rules.1 hrule
    obtain ⟨j, rfl, rfl, -⟩ := eq_of_invokes_top hother
    exact ⟨j + 1, j, rfl, rfl, Nat.lt_succ_self j⟩
  induction h with
  | single h => exact hleads h
  | tail _ h ih =>
    obtain ⟨i, j, rfl, hj, hlt⟩ := ih
    obtain ⟨j', l, rfl, rfl, hlt'⟩ := hleads h
    obtain rfl := Table.candidate_injective hj
    exact ⟨i, l, rfl, rfl, Nat.lt_trans hlt' hlt⟩

theorem not_recursive_rules (n : Nat) (name : String) : ¬(rules n).Recursive name := by
  intro h
  obtain ⟨i, j, rfl, hj, hlt⟩ := lt_of_transGen_leads h
  rw [Table.candidate_injective hj] at hlt
  exact Nat.lt_irrefl j hlt

theorem size_rules_le (n : Nat) : (rules n).size ≤ n := by
  induction n with
  | zero => exact Nat.le_refl 0
  | succ n ih => exact Nat.le_trans Std.ExtTreeMap.size_insert_le (Nat.succ_le_succ ih)

/-- As many levels as may nest are expanded. -/
theorem expand_succeeds_iff_rules :
    (rules expansionDepth).size ≤ expansionDepth ∧
      ∃ x, (top expansionDepth).expand (rules expansionDepth) = .ok x :=
  ⟨size_rules_le _, ((expand_succeeds_iff argumentsFit_rules argumentsFit_top).2.1
    (size_rules_le _)).2 fun name _ => not_recursive_rules _ name⟩

theorem expandWithin_top {depth : Nat} (h : depth < n) :
    (top (depth + 1)).expandWithin (rules n) depth = .error (.endlessRule (level 0)) := by
  induction depth with
  | zero =>
    have hrule : (rules n)[level 0]? = some ⟨[], top 0⟩ := getElem?_rules.2 ⟨0, h, rfl, rfl⟩
    exact expandWithin_zero (invocation?_eq_some.2 ⟨[], rfl, hrule⟩)
  | succ depth ih =>
    have hrule : (rules n)[level (depth + 1)]? = some ⟨[], top (depth + 1)⟩ :=
      getElem?_rules.2 ⟨depth + 1, h, rfl, rfl⟩
    have hbody : (top (depth + 1)).substitute (.ofParams [] []) = top (depth + 1) :=
      substitute_of_not_var _ rfl
    have hinvocation : (top (depth + 2)).invocation? (rules n) =
        some (level (depth + 1), ⟨[], top (depth + 1)⟩) :=
      invocation?_eq_some.2 ⟨[], rfl, hrule⟩
    rw [expandWithin_succ depth hinvocation rfl]
    show ((top (depth + 1)).substitute (.ofParams [] [])).expandWithin (rules n) depth = _
    rw [hbody]
    exact ih (Nat.lt_of_succ_lt h)

/-- With one level more, an expansion fails although no rule expands into itself and all invocations
pass the right number of arguments. -/
theorem tower_rejected :
    (∀ name, ¬(rules 65).Recursive name) ∧
      (∀ (name : String) (rule : Rule), (rules 65)[name]? = some rule →
        rule.body.ArgumentsFit (rules 65)) ∧
      (top 65).ArgumentsFit (rules 65) ∧
      (top 65).expand (rules 65) = .error (.endlessRule "r_0") :=
  ⟨not_recursive_rules 65, argumentsFit_rules, argumentsFit_top, expandWithin_top (by decide)⟩

end Tower

end KernelTyping
