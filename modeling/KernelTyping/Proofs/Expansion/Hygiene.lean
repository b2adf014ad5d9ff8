import Mathlib
import KernelTyping.Proofs.Expansion.Capture
import KernelTyping.Proofs.Expansion.Nesting

/-!
# KernelTyping.Proofs.Expansion.Hygiene — which expansions capture names

`Inserts` are the steps of an expansion, at each of which arguments are put into the body of a rule.
There is one for each rule that the expression comes to (`exists_inserts_iff`).

* `free_expandWithin`: an expansion brings in no free variables but those of the rules.
* `free_of_inserts`: so it is known where the free variables of an argument are from.
* `expand_captureFree_iff`: which steps capture nothing.  As long as each rule has the names that it
  binds to itself (`Apart`), none does.
-/

namespace KernelTyping

namespace Expr

variable {c e : Expr} {v : String}

/-! ### The steps of an expansion -/

variable {rules : Rules} {outer name : String} {r rule : Rule} {passed args : List Expr}
  {depth : Nat}

/-- An expansion that allows bodies to nest up to `depth` deep comes to put the arguments into the
body of the rule. -/
inductive Inserts (rules : Rules) : Nat → Expr → String → Rule → List Expr → Prop
  /-- An invocation is expanded. -/
  | here {depth : Nat} {e : Expr} {name : String} {rule : Rule} {args : List Expr} :
      e.Unrolls rules depth name rule args → Inserts rules (depth + 1) e name rule args
  /-- So are the children of any expression. -/
  | child {depth : Nat} {c e : Expr} {name : String} {rule : Rule} {args : List Expr} :
      c ∈ e.children → Inserts rules depth c name rule args → Inserts rules depth e name rule args
  /-- The body of a rule is expanded with the arguments in it. -/
  | body {depth : Nat} {e : Expr} {outer name : String} {r rule : Rule} {passed args : List Expr} :
      e.Unrolls rules depth outer r passed →
      Inserts rules depth (r.body.substitute (.ofParams r.params passed)) name rule args →
      Inserts rules (depth + 1) e name rule args

/-- Some rule that the expression comes to has the variable free in its body. -/
def Brings (rules : Rules) (e : Expr) (v : String) : Prop :=
  ∃ name rule, e.ComesTo rules name ∧ rules[name]? = some rule ∧ rule.body.Free v

/-- A rule is invoked in the expression with an argument in which the variable is free. -/
def Passes (rules : Rules) (e : Expr) (v : String) : Prop :=
  ∃ name args, e.Applies rules name args ∧ ∃ a ∈ args, a.Free v

theorem Brings.of_mem_children (hc : c ∈ e.children) (h : c.Brings rules v) : e.Brings rules v := by
  obtain ⟨name, rule, hname, hrule, hv⟩ := h
  exact ⟨name, rule, hname.of_mem_children hc, hrule, hv⟩

theorem Passes.of_mem_children (hc : c ∈ e.children) (h : c.Passes rules v) : e.Passes rules v := by
  obtain ⟨name, args, hargs, hv⟩ := h
  exact ⟨name, args, hargs.of_mem_children hc, hv⟩

theorem Passes.within (h : e.Passes rules v) : (var v).Within e := by
  obtain ⟨name, args, ⟨-, hargs⟩, a, ha, hv⟩ := h
  exact (hv.within.tail (.argument ha)).trans hargs

namespace Unrolls

variable (h : e.Unrolls rules depth outer r passed)

include h

/-- An invocation binds nothing. -/
theorem free_of_mem_children (hc : c ∈ e.children) (hv : c.Free v) : e.Free v := by
  obtain ⟨_, rfl, -⟩ := invocation?_eq_some.1 h.invokes
  exact free_iff.2 (.inr ⟨List.not_mem_nil, c, hc, hv⟩)

theorem comesTo : e.ComesTo rules outer :=
  ⟨outer, ⟨_, (invokes_of_invocation? h.invokes).1⟩, .refl⟩

/-- What the expansion of the body comes to is what the rule leads to. -/
theorem leads (hname : (r.body.substitute (.ofParams r.params passed)).ComesTo rules name) :
    Relation.TransGen rules.Leads outer name := by
  obtain ⟨first, ⟨n, hfirst⟩, hpath⟩ := hname
  exact ComesTo.of_body h.rule_eq ⟨first, ⟨n, (invokes_substitute h.expanded).1 hfirst⟩, hpath⟩

theorem comesTo_of_body
    (hname : (r.body.substitute (.ofParams r.params passed)).ComesTo rules name) :
    e.ComesTo rules name := by
  obtain ⟨first, hfirst, hpath⟩ := h.comesTo
  exact ⟨first, hfirst, hpath.trans (h.leads hname).to_reflTransGen⟩

theorem brings_of_body
    (hv : (r.body.substitute (.ofParams r.params passed)).Brings rules v) : e.Brings rules v := by
  obtain ⟨name, rule, hname, hrule, hv⟩ := hv
  exact ⟨name, rule, h.comesTo_of_body hname, hrule, hv⟩

end Unrolls

theorem comesTo_of_inserts (h : e.Inserts rules depth name rule args) :
    e.ComesTo rules name ∧ rules[name]? = some rule := by
  induction h with
  | here h => exact ⟨h.comesTo, h.rule_eq⟩
  | child hc _ ih => exact ⟨ih.1.of_mem_children hc, ih.2⟩
  | body h _ ih => exact ⟨h.comesTo_of_body ih.1, ih.2⟩

/-- Each invocation in an expression that is expanded is a step. -/
theorem exists_inserts_of_invokes {x : Expr} {n : Nat} (h : e.expandWithin rules depth = .ok x)
    (hname : e.Invokes rules name n) : ∃ rule args, e.Inserts rules depth name rule args := by
  refine expandWithin_induction
    (motive := fun depth e _ => e.Invokes rules name n →
      ∃ rule args, e.Inserts rules depth name rule args) ?_ ?_ depth e x h hname
  · intro depth e cs hinvocation hcs hname
    rcases invokes_iff.1 hname with ⟨⟨rule, hrule⟩, -⟩ | ⟨c, hc, hname⟩
    · rw [hinvocation] at hrule
      cases hrule
    · obtain ⟨_, -, -, ih⟩ := exists_right_of_forall₂ hcs hc
      obtain ⟨rule, args, hinserts⟩ := ih hname
      exact ⟨rule, args, .child hc hinserts⟩
  · intro depth e first rule args e' hunrolls hargs _ hname
    rcases invokes_iff.1 hname with ⟨⟨_, hrule⟩, -⟩ | ⟨c, hc, hname⟩
    · obtain ⟨rfl, rfl⟩ := Prod.mk.inj (Option.some.inj (hunrolls.invokes.symm.trans hrule))
      exact ⟨rule, args, .here hunrolls⟩
    · obtain ⟨_, -, ih⟩ := exists_right_of_forall₂ hargs hc
      obtain ⟨r, passed, hinserts⟩ := ih hname
      exact ⟨r, passed, .child hc hinserts⟩

/-- So is each invocation in the body of a rule that arguments are put into. -/
theorem exists_inserts_of_body {x : Expr} {n : Nat} (h : e.expandWithin rules depth = .ok x)
    (hinserts : e.Inserts rules depth outer r passed) (hname : r.body.Invokes rules name n) :
    ∃ rule args, e.Inserts rules depth name rule args := by
  induction hinserts generalizing x with
  | here hunrolls =>
    rw [hunrolls.expandWithin_eq] at h
    obtain ⟨rule, args, hinserts⟩ := exists_inserts_of_invokes h hname.substitute
    exact ⟨rule, args, .body hunrolls hinserts⟩
  | child hc _ ih =>
    obtain ⟨y, hy⟩ := exists_expandWithin_of_mem_children h hc
    obtain ⟨rule, args, hinserts⟩ := ih hy hname
    exact ⟨rule, args, .child hc hinserts⟩
  | body hunrolls _ ih =>
    rw [hunrolls.expandWithin_eq] at h
    obtain ⟨rule, args, hinserts⟩ := ih h hname
    exact ⟨rule, args, .body hunrolls hinserts⟩

/-- The steps of an expansion are with the rules that the expression comes to. -/
theorem exists_inserts_iff {x : Expr} (h : e.expandWithin rules depth = .ok x) :
    (∃ rule args, e.Inserts rules depth name rule args) ↔ e.ComesTo rules name := by
  constructor
  · rintro ⟨rule, args, hinserts⟩
    exact (comesTo_of_inserts hinserts).1
  · rintro ⟨first, ⟨n, hfirst⟩, hpath⟩
    induction hpath with
    | refl => exact exists_inserts_of_invokes h hfirst
    | tail _ hleads ih =>
      obtain ⟨rule, args, hinserts⟩ := ih
      obtain ⟨r, hr, n, hname⟩ := hleads
      obtain rfl := Option.some.inj (hr.symm.trans (comesTo_of_inserts hinserts).2)
      exact exists_inserts_of_body h hinserts hname

/-- An expansion brings in no free variables but those of the rules that it comes to. -/
theorem free_expandWithin {x : Expr} (h : e.expandWithin rules depth = .ok x) (hv : x.Free v) :
    e.Free v ∨ e.Brings rules v := by
  refine expandWithin_induction
    (motive := fun _ e x => x.Free v → e.Free v ∨ e.Brings rules v) ?_ ?_ depth e x h hv
  · intro depth e cs hinvocation hcs hv
    rcases free_iff.1 hv with hv | ⟨hbinders, c', hc', hv⟩
    · rw [← varName?_eq_some, varName?_withChildren, varName?_eq_some] at hv
      exact .inl (free_iff.2 (.inl hv))
    · rw [children_withChildren hcs.length_eq.symm] at hc'
      rw [binders_withChildren] at hbinders
      have hall : ∀ c' ∈ cs, c'.Free v → e.Free v ∨ e.Brings rules v := by
        refine forall_right_of_forall₂ hcs fun c hc c' ih hv => ?_
        exact (ih.2 hv).imp (fun hv => free_iff.2 (.inr ⟨hbinders, c, hc, hv⟩))
          (.of_mem_children hc)
      exact hall c' hc' hv
  · intro depth e name rule args e' hunrolls hargs ih hv
    rcases ih hv with hv | hv
    · rcases free_substitute hv with hv | ⟨x, a, ha, hv⟩
      · exact .inr ⟨name, rule, hunrolls.comesTo, hunrolls.rule_eq, hv⟩
      · have hall : ∀ a ∈ args, a.Free v → e.Free v ∨ e.Brings rules v := by
          refine forall_right_of_forall₂ hargs fun c hc a ih hv => ?_
          exact (ih hv).imp (hunrolls.free_of_mem_children hc) (.of_mem_children hc)
        exact hall a (mem_of_ofParams ha).2 hv
    · exact .inr (hunrolls.brings_of_body hv)

theorem Unrolls.passes_or_brings {a : Expr} (h : e.Unrolls rules depth outer r passed)
    (ha : a ∈ passed) (hv : a.Free v) : e.Passes rules v ∨ e.Brings rules v := by
  have hall : ∀ a ∈ passed, a.Free v → e.Passes rules v ∨ e.Brings rules v := by
    refine forall_right_of_forall₂ h.expands fun c hc a hexpand hv => ?_
    rcases free_expandWithin hexpand hv with hv | hv
    · exact .inl ⟨outer, e.children, applies_iff.2 (.inl ⟨⟨r, h.invokes⟩, rfl⟩), c, hc, hv⟩
    · exact .inr (hv.of_mem_children hc)
  exact hall a ha hv

/-- Where a free variable of an argument is from: it is free in what the expression passes, or in the
body of some rule, or it stands in the body of a rule that leads to the one it is put into. -/
theorem free_of_inserts {a : Expr} (h : e.Inserts rules depth name rule args) (ha : a ∈ args)
    (hv : a.Free v) :
    e.Passes rules v ∨ e.Brings rules v ∨
      ∃ other r, e.ComesTo rules other ∧ rules[other]? = some r ∧
        Relation.TransGen rules.Leads other name ∧ (var v).Within r.body := by
  induction h with
  | here h => exact (h.passes_or_brings ha hv).imp_right .inl
  | child hc _ ih =>
    rcases ih ha with hv | hv | ⟨other, r, hother, hr⟩
    · exact .inl (hv.of_mem_children hc)
    · exact .inr (.inl (hv.of_mem_children hc))
    · exact .inr (.inr ⟨other, r, hother.of_mem_children hc, hr⟩)
  | @body depth e outer name r rule passed args h hbody ih =>
    rcases ih ha with ⟨_, _, happlies, a', ha', hv⟩ | hv | ⟨other, r', hother, hr⟩
    · -- what the body passes is an argument of its own with those of the rule put in
      obtain ⟨τ, own, hown, rfl, hτ⟩ := applies_of_substitute h.expanded happlies
      obtain ⟨o, ho, rfl⟩ := List.mem_map.1 ha'
      rcases free_substitute hv with hv | ⟨x, b, hb, hv⟩
      · have hwithin : (var v).Within r.body := Passes.within ⟨_, own, hown, o, ho, hv⟩
        exact .inr (.inr ⟨outer, r, h.comesTo, h.rule_eq, h.leads (comesTo_of_inserts hbody).1,
          hwithin⟩)
      · exact (h.passes_or_brings (mem_of_ofParams (hτ x b hb)).2 hv).imp_right .inl
    · exact .inr (.inl (h.brings_of_body hv))
    · exact .inr (.inr ⟨other, r', h.comesTo_of_body hother, hr⟩)

/-! ### Names apart -/

/-- Each rule has the names that it binds to itself: the expression does not use them, nor do other
rules, and the rule itself does not use them otherwise. -/
def Apart (rules : Rules) (e : Expr) : Prop :=
  ∀ name rule, e.ComesTo rules name → rules[name]? = some rule → ∀ v, rule.body.Binds v →
    v ∉ rule.params ∧ ¬rule.body.Free v ∧ ¬(var v).Within e ∧
      ∀ other r, e.ComesTo rules other → rules[other]? = some r → (var v).Within r.body →
        other = name

theorem captureFree_of_apart {x : Expr} (h : e.expandWithin rules depth = .ok x)
    (hapart : e.Apart rules) (hinserts : e.Inserts rules depth name rule args) :
    CaptureFree (.ofParams rule.params args) rule.body := by
  obtain ⟨hname, hrule⟩ := comesTo_of_inserts hinserts
  refine captureFree_iff.2 fun path x a _ _ ha => .inr ?_
  obtain ⟨hx, ha⟩ := mem_of_ofParams ha
  refine ⟨fun hscope => ?_, fun v hv hscope => ?_⟩
  · exact (hapart name rule hname hrule x (binds_of_mem_scope hscope)).1 hx
  · obtain ⟨-, hfree, hwithin, hothers⟩ :=
      hapart name rule hname hrule v (binds_of_mem_scope hscope)
    rcases free_of_inserts hinserts ha hv with hv | ⟨other, r, hother, hr, hv⟩ |
      ⟨other, r, hother, hr, hleads, hv⟩
    · exact hwithin hv.within
    · obtain rfl := hothers other r hother hr hv.within
      obtain rfl := Option.some.inj (hr.symm.trans hrule)
      exact hfree hv
    · obtain rfl := hothers other r hother hr hv
      exact not_recursive_of_expandWithin h hother hleads

/-- **Hygiene.**  An expansion that succeeds has a step for each rule that the expression comes to.
At each step, what a reduction binds in the body of the rule stays.  The step captures nothing exactly
if, wherever it replaces a variable by something else, no view binds the variable there and nothing
binds a free variable of the argument.  If each rule has the names that it binds to itself, then this
is so at all steps. -/
theorem expand_captureFree_iff {x : Expr} (h : e.expand rules = .ok x) :
    (∀ name, (∃ rule args, e.Inserts rules expansionDepth name rule args) ↔
      e.ComesTo rules name) ∧
    (∀ name rule args, e.Inserts rules expansionDepth name rule args →
      (∀ path v, rule.body.at? path = some (var v) → v ∈ rule.body.scope boundNames path →
        (rule.body.substitute (.ofParams rule.params args)).at? path = some (var v)) ∧
      (CaptureFree (.ofParams rule.params args) rule.body ↔
        ∀ path v a, rule.body.at? path = some (var v) → v ∉ rule.body.scope boundNames path →
          Substitution.ofParams rule.params args v = some a →
            a = var v ∨ v ∉ rule.body.scope binders path ∧
              ∀ w, a.Free w → w ∉ rule.body.scope binders path)) ∧
    (e.Apart rules → ∀ name rule args, e.Inserts rules expansionDepth name rule args →
      CaptureFree (.ofParams rule.params args) rule.body) :=
  ⟨fun _ => exists_inserts_iff h,
    fun _ _ _ _ => ⟨fun _ _ => at?_substitute_of_mem _, captureFree_iff⟩,
    fun hapart _ _ _ => captureFree_of_apart h hapart⟩

end Expr

/-! ### A reduction and a view -/

namespace Sweep

open KernelTyping.Expr

/-- Adds up the elements of `x`, scaled by `a`. -/
def total : Rule :=
  ⟨["a"], .reduction .sum ["j"] (.nary .product [.var "a", .subscript (.var "x") [.var "j"]])⟩

/-- Sweeps its own parameter. -/
def row : Rule := ⟨["i"], .view ["i"] (.subscript (.var "x") [.var "i"])⟩

def only (name : String) (rule : Rule) : Rules := (∅ : Rules).insert name rule

/-- The rule of that name, invoked with one argument. -/
def invoke (name : String) (a : Expr) : Expr := .call (.bare name) [a] []

theorem getElem?_only {name other : String} {rule r : Rule} :
    (only name rule)[other]? = some r ↔ other = name ∧ r = rule := by
  rw [only, Std.ExtTreeMap.getElem?_insert]
  by_cases h : name = other
  · subst h
    simp [eq_comm]
  · simp [h, Ne.symm h]

theorem apart_total : (invoke "total" (.var "y")).Apart (only "total" total) := by
  intro name rule _ hrule v hv
  obtain ⟨rfl, rfl⟩ := getElem?_only.1 hrule
  have hbinders : ∀ d ∈ total.body.subterms, ∀ v ∈ d.binders, v = "j" := by decide +kernel
  have hfree : ¬total.body.Free "j" := by
    rw [free_iff]
    simp [total, binders, boundNames]
  have hwithin : Expr.var "j" ∉ (invoke "total" (.var "y")).subterms := by decide +kernel
  obtain ⟨d, hd, hv⟩ := hv
  obtain rfl := hbinders d (mem_subterms.2 hd) v hv
  exact ⟨by decide, hfree, fun h => hwithin (mem_subterms.2 h),
    fun other r _ hr _ => (getElem?_only.1 hr).1⟩

/-- Where the names are apart, nothing is captured. -/
theorem total_captureFree : ∃ x,
    (invoke "total" (.var "y")).expand (only "total" total) = .ok x ∧
      (invoke "total" (.var "y")).Inserts (only "total" total) expansionDepth "total" total
        [.var "y"] ∧
      CaptureFree (.ofParams total.params [.var "y"]) total.body := by
  have hexpand : (invoke "total" (.var "y")).expand (only "total" total) =
      .ok (.reduction .sum ["j"]
        (.nary .product [.var "y", .subscript (.var "x") [.var "j"]])) := by cbv
  have hinserts : (invoke "total" (.var "y")).Inserts (only "total" total) expansionDepth "total"
      total [.var "y"] := .here ⟨by cbv, rfl, .cons (by cbv) .nil⟩
  exact ⟨_, hexpand, hinserts, (expand_captureFree_iff hexpand).2.2 apart_total _ _ _ hinserts⟩

/-- A view does not keep what it sweeps, and a reduction captures a free variable of an argument. -/
theorem names_captured :
    (invoke "row" (.int 3)).expand (only "row" row) =
        .ok (.view ["i"] (.subscript (.var "x") [.int 3])) ∧
      (invoke "row" (.int 3)).Inserts (only "row" row) expansionDepth "row" row [.int 3] ∧
      ¬CaptureFree (.ofParams row.params [.int 3]) row.body ∧
    (invoke "total" (.var "j")).expand (only "total" total) =
        .ok (.reduction .sum ["j"]
          (.nary .product [.var "j", .subscript (.var "x") [.var "j"]])) ∧
      (invoke "total" (.var "j")).Inserts (only "total" total) expansionDepth "total" total
        [.var "j"] ∧
      ¬CaptureFree (.ofParams total.params [.var "j"]) total.body := by
  refine ⟨by cbv, .here ⟨by cbv, rfl, .cons (by cbv) .nil⟩, fun h => ?_,
    by cbv, .here ⟨by cbv, rfl, .cons (by cbv) .nil⟩, fun h => ?_⟩
  · have hplace := captureFree_iff.1 h [0, 1] "i" (.int 3) rfl (by decide) rfl
    rcases hplace with hsame | ⟨hscope, -⟩
    · cases hsame
    · exact hscope (by decide)
  · have hplace := captureFree_iff.1 h [0, 0] "a" (.var "j") rfl (by decide) rfl
    rcases hplace with hsame | ⟨-, hfree⟩
    · exact absurd (Expr.var.inj hsame) (by decide)
    · exact hfree "j" (free_var.2 rfl) (by decide)

end Sweep

end KernelTyping
