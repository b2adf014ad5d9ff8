import KernelTyping.Proofs.Expansion.Nesting
import KernelTyping.Proofs.Renaming.Plain
import KernelTyping.Proofs.Traversal

/-!
# KernelTyping.Proofs.Renaming.Known — known names before and after expansion

A bare name is known to a kernel if the table has an entry of that name and the kernel no rule.
`Expr.ResolvedTo` points calls of known names at their entries by the letter, and an expression has
one resolved form (`resolvedTo_iff`).

Resolving goes past substitution (`resolveCalls_substitute`), since variables are all that a
substitution looks at, and so past expansion (`expandWithin_resolveCalls`), since no known name is
that of a rule: a kernel that is resolved expands to its resolved expansion, or fails as it did
(`Kernel.expand_resolveKnown`).
-/

namespace KernelTyping

namespace Expr

variable {known : String → Bool} {rules : Rules} {e z : Expr} {name : String}

/-! ### One node -/

theorem mapChildren_mapChildren (f g : Expr → Expr) (e : Expr) :
    (e.mapChildren f).mapChildren g = e.mapChildren fun c => g (f c) := by
  rw [mapChildren, children_mapChildren, List.map_map, mapChildren,
    withChildren_withChildren (List.length_map f) (List.length_map _)]
  rfl

theorem mapChildren_congr {f g : Expr → Expr} (h : ∀ c ∈ e.children, f c = g c) :
    e.mapChildren f = e.mapChildren g := by
  rw [mapChildren, List.map_congr_left h, mapChildren]

theorem mapChildren_pointTo (f : Expr → Expr) (name? : Option String) (e : Expr) :
    (e.pointTo name?).mapChildren f = (e.mapChildren f).pointTo name? := by
  rw [mapChildren, children_pointTo, withChildren_pointTo, mapChildren]

theorem varName?_pointTo (name? : Option String) (e : Expr) :
    (e.pointTo name?).varName? = e.varName? := by
  cases name? with
  | none => rfl
  | some name => cases e <;> rfl

theorem boundNames_pointTo (name? : Option String) (e : Expr) :
    (e.pointTo name?).boundNames = e.boundNames := by
  cases name? with
  | none => rfl
  | some name => cases e <;> rfl

theorem boundNames_withChildren (e : Expr) (cs : List Expr) :
    (e.withChildren cs).boundNames = e.boundNames := by
  cases e with
  | constant _ | var _ | hardware _ | nary _ _ | call _ _ _ | tupleReduction _ _ _ => rfl
  | _ => unfold withChildren; split <;> simp_all [boundNames]

/-- The entry that a call is pointed at, if it is the call of a known bare name. -/
def knownName? (known : String → Bool) (e : Expr) : Option String :=
  match e.callee? with
  | some (.bare name) => if known name then some name else none
  | some (.entry _) | none => none

theorem knownName?_eq_some :
    e.knownName? known = some name ↔ e.callee? = some (.bare name) ∧ known name = true := by
  unfold knownName?
  split
  case h_1 other h =>
    rw [h]
    simp only [Option.ite_none_right_eq_some, Option.some.injEq, Callee.bare.injEq]
    constructor
    · rintro ⟨hother, rfl⟩
      exact ⟨rfl, hother⟩
    · rintro ⟨rfl, hother⟩
      exact ⟨hother, rfl⟩
  case h_2 _ h => simp [h]
  case h_3 h => simp [h]

theorem knownName?_withChildren (e : Expr) (cs : List Expr) :
    (e.withChildren cs).knownName? known = e.knownName? known := by
  rw [knownName?, callee?_withChildren, knownName?]

theorem resolveCall_eq (known : String → Bool) (e : Expr) :
    resolveCall known e = e.pointTo (e.knownName? known) := by
  cases e with
  | call callee args keywords =>
    cases callee with
    | entry name => rfl
    | bare name =>
      by_cases hname : known name <;>
        simp [resolveCall, knownName?, callee?, hname, pointTo, withCallee]
  | _ => rfl

theorem resolveCalls_eq (known : String → Bool) (e : Expr) :
    e.resolveCalls known =
      (e.mapChildren (resolveCalls known)).pointTo (e.knownName? known) := by
  unfold resolveCalls
  rw [rebuild_eq, resolveCall_eq, mapChildren, knownName?_withChildren]

theorem children_resolveCalls (e : Expr) :
    (e.resolveCalls known).children = e.children.map (resolveCalls known) := by
  rw [resolveCalls_eq, children_pointTo, children_mapChildren]

/-- A call that was pointed at an entry is no longer that of a bare name. -/
theorem knownName?_pointTo (e : Expr) :
    (e.pointTo (e.knownName? known)).knownName? known = none := by
  cases h : e.knownName? known with
  | none => exact h
  | some name =>
    obtain ⟨args, keywords, rfl⟩ := callee?_eq_some.1 (knownName?_eq_some.1 h).1
    rfl

/-- Resolved twice is resolved once. -/
theorem resolveCalls_resolveCalls (e : Expr) :
    (e.resolveCalls known).resolveCalls known = e.resolveCalls known := by
  induction e using inductionOnChildren with
  | step e ih =>
    have hnode : (e.mapChildren (resolveCalls known)).knownName? known = e.knownName? known :=
      knownName?_withChildren e _
    rw [resolveCalls_eq known e, resolveCalls_eq, mapChildren_pointTo, mapChildren_mapChildren,
      mapChildren_congr ih, ← hnode, knownName?_pointTo]
    rfl

/-! ### Resolving by the letter -/

/-- The second expression is the first with every call of a known bare name pointed at the entry of
that name. -/
inductive ResolvedTo (known : String → Bool) : Expr → Expr → Prop where
  | pointed {e : Expr} {cs : List Expr} {name : String} (hname : e.callee? = some (.bare name))
    (hknown : known name = true) (hchildren : List.Forall₂ (ResolvedTo known) e.children cs) :
    ResolvedTo known e ((e.withChildren cs).withCallee (.entry name))
  | kept {e : Expr} {cs : List Expr}
    (hname : ∀ name, e.callee? = some (.bare name) → known name = false)
    (hchildren : List.Forall₂ (ResolvedTo known) e.children cs) :
    ResolvedTo known e (e.withChildren cs)

/-- A resolved form has the resolved forms of the children, below the node pointed at its entry. -/
theorem resolvedTo_iff_children :
    ResolvedTo known e z ↔ ∃ cs, List.Forall₂ (ResolvedTo known) e.children cs ∧
      z = (e.withChildren cs).pointTo (e.knownName? known) := by
  constructor
  · intro h
    cases h with
    | @pointed _ cs name hname hknown hchildren =>
      refine ⟨cs, hchildren, ?_⟩
      rw [knownName?_eq_some.2 ⟨hname, hknown⟩, pointTo]
    | @kept _ cs hname hchildren =>
      refine ⟨cs, hchildren, ?_⟩
      cases hknown : e.knownName? known with
      | none => rfl
      | some name =>
        obtain ⟨hcallee, hknown⟩ := knownName?_eq_some.1 hknown
        rw [hname name hcallee] at hknown
        cases hknown
  · rintro ⟨cs, hchildren, rfl⟩
    cases hknown : e.knownName? known with
    | some name =>
      obtain ⟨hcallee, hknown⟩ := knownName?_eq_some.1 hknown
      exact .pointed hcallee hknown hchildren
    | none =>
      refine .kept (fun name hcallee => ?_) hchildren
      by_contra hname
      rw [knownName?_eq_some.2 ⟨hcallee, by simpa using hname⟩] at hknown
      cases hknown

/-- Every expression has one resolved form. -/
theorem resolvedTo_iff : ResolvedTo known e z ↔ z = e.resolveCalls known := by
  induction e using inductionOnChildren generalizing z with
  | step e ih =>
    have hchildren (cs : List Expr) : List.Forall₂ (ResolvedTo known) e.children cs ↔
        cs = e.children.map (resolveCalls known) := forall₂_iff_eq_map fun c hc z => ih c hc
    simp only [resolvedTo_iff_children, hchildren, exists_eq_left]
    rw [resolveCalls_eq, mapChildren]

end Expr

/-! ### Substitution -/

/-- The substitution that puts in what is resolved. -/
def Substitution.resolveCalls (known : String → Bool) (σ : Substitution) : Substitution :=
  fun name => (σ name).map (Expr.resolveCalls known)

theorem Substitution.resolveCalls_without (known : String → Bool) (σ : Substitution)
    (names : List String) :
    (σ.without names).resolveCalls known = (σ.resolveCalls known).without names := by
  funext name
  by_cases hname : name ∈ names <;> simp [resolveCalls, without, hname]

theorem Substitution.resolveCalls_ofParams (known : String → Bool) (params : List String)
    (args : List Expr) :
    (Substitution.ofParams params args).resolveCalls known =
      .ofParams params (args.map (Expr.resolveCalls known)) := by
  have hlookup (pairs : List (String × Expr)) (name : String) :
      (pairs.map (Prod.map id (Expr.resolveCalls known))).lookup name =
        (pairs.lookup name).map (Expr.resolveCalls known) := by
    induction pairs with
    | nil => rfl
    | cons pair pairs ih =>
      rw [List.map_cons, List.lookup_cons, List.lookup_cons, ih]
      simp only [Prod.map_fst, Prod.map_snd, id]
      cases name == pair.1 <;> rfl
  funext name
  rw [resolveCalls, ofParams, ofParams, List.zip_map_right, ← List.map_reverse, hlookup]

namespace Expr

variable {known : String → Bool} {rules : Rules} {e : Expr} {name : String} {rule : Rule}

/-- A substitution looks at variables only, and so resolving goes past it. -/
theorem resolveCalls_substitute (σ : Substitution) (e : Expr) :
    (e.substitute σ).resolveCalls known =
      (e.resolveCalls known).substitute (σ.resolveCalls known) := by
  induction e using inductionOnChildren generalizing σ with
  | step e ih =>
    have hvar : (e.resolveCalls known).varName? = e.varName? := by
      rw [resolveCalls_eq, varName?_pointTo, mapChildren, varName?_withChildren]
    cases h : e.varName? with
    | some name =>
      rw [h] at hvar
      obtain rfl := varName?_eq_some.1 h
      rw [varName?_eq_some.1 hvar, substitute_var, substitute_var, Substitution.resolveCalls]
      cases σ name with
      | none => exact varName?_eq_some.1 hvar
      | some a => rfl
    | none =>
      have hbound : (e.resolveCalls known).boundNames = e.boundNames := by
        rw [resolveCalls_eq, boundNames_pointTo, mapChildren, boundNames_withChildren]
      have hnode (f : Expr → Expr) : (e.mapChildren f).knownName? known = e.knownName? known :=
        knownName?_withChildren e _
      have hchildren : ∀ c ∈ e.children,
          (c.substitute (σ.without e.boundNames)).resolveCalls known =
            (c.resolveCalls known).substitute
              ((σ.resolveCalls known).without e.boundNames) := by
        intro c hc
        rw [ih c hc, Substitution.resolveCalls_without]
      calc (e.substitute σ).resolveCalls known
          = (e.mapChildren fun c =>
              (c.substitute (σ.without e.boundNames)).resolveCalls known).pointTo
                (e.knownName? known) := by
            rw [substitute_of_not_var σ h, resolveCalls_eq, mapChildren_mapChildren, hnode]
        _ = (e.mapChildren fun c =>
              (c.resolveCalls known).substitute
                ((σ.resolveCalls known).without e.boundNames)).pointTo (e.knownName? known) := by
            rw [mapChildren_congr hchildren]
        _ = (e.resolveCalls known).substitute (σ.resolveCalls known) := by
            rw [substitute_of_not_var _ (hvar.trans h), hbound, resolveCalls_eq known e,
              mapChildren_pointTo, mapChildren_mapChildren]

end Expr

/-! ### Expansion -/

/-- The rule with the calls of known names in its body resolved. -/
def Rule.resolveCalls (known : String → Bool) (rule : Rule) : Rule :=
  { rule with body := rule.body.resolveCalls known }

/-- The rules with the calls of known names in their bodies resolved. -/
def Rules.resolveCalls (known : String → Bool) (rules : Rules) : Rules :=
  rules.map fun _ rule => rule.resolveCalls known

namespace Expr

variable {known : String → Bool} {rules : Rules} {e : Expr} {name : String} {rule : Rule}

/-- No rule has a known name, and so an invocation stays one, and no other call becomes one. -/
theorem invocation?_resolveCalls (hknown : ∀ name, known name = true → rules[name]? = none)
    (e : Expr) :
    (e.resolveCalls known).invocation? (rules.resolveCalls known) =
      (e.invocation? rules).map fun (name, rule) => (name, rule.resolveCalls known) := by
  have hrules (x : Expr) : x.invocation? (rules.resolveCalls known) =
      (x.invocation? rules).map fun (name, rule) => (name, rule.resolveCalls known) := by
    unfold invocation? Rules.resolveCalls
    split
    · rw [Std.ExtTreeMap.getElem?_map, Option.map_map, Option.map_map]
      rfl
    · rfl
  rw [hrules, resolveCalls_eq]
  cases h : e.knownName? known with
  | none => exact congrArg (Option.map _) (invocation?_mapChildren _ e)
  | some name =>
    obtain ⟨hcallee, hname⟩ := knownName?_eq_some.1 h
    have hnone : e.invocation? rules = none := by
      rw [Option.eq_none_iff_forall_ne_some]
      rintro ⟨other, rule⟩ hfound
      obtain ⟨args, rfl, hrule⟩ := invocation?_eq_some.1 hfound
      obtain rfl : other = name := by simpa [callee?] using hcallee
      rw [hknown other hname] at hrule
      cases hrule
    rw [invocation?_pointTo _ ((invocation?_mapChildren _ e).trans hnone), hnone]

/-- A wrong number of arguments is reported before anything is expanded. -/
theorem expandWithin_of_arity_ne (depth : Nat) (h : e.invocation? rules = some (name, rule))
    (harity : e.children.length ≠ rule.params.length) :
    e.expandWithin rules (depth + 1) =
      .error (.ruleArity name rule.params.length e.children.length) := by
  rw [expandWithin, h]
  simp only [ne_eq, harity, not_false_eq_true, if_true]
  rfl

/-- Where all of a node's children are done alike before and after, so is the node rebuilt. -/
theorem mapChildrenM_resolveCalls {f g : Expr → Except Fault Expr}
    (hcomm : ∀ c ∈ e.children, g (c.resolveCalls known) = (f c).map (resolveCalls known)) :
    (e.resolveCalls known).mapChildrenM g = (e.mapChildrenM f).map (resolveCalls known) := by
  have hchildren := mapM_map_comm hcomm
  rw [← children_resolveCalls] at hchildren
  unfold mapChildrenM
  rw [hchildren]
  cases hcs : e.children.mapM f with
  | error fault => rfl
  | ok cs =>
    have hlength : cs.length = e.children.length := (mapM_eq_ok.1 hcs).length_eq.symm
    have hmap : (cs.map (resolveCalls known)).length = e.children.length := by simp [hlength]
    refine congrArg Except.ok ?_
    rw [resolveCalls_eq, resolveCalls_eq known (e.withChildren cs), knownName?_withChildren,
      withChildren_pointTo, mapChildren, mapChildren, children_withChildren hlength,
      withChildren_withChildren (List.length_map _) hmap, withChildren_withChildren hlength hmap]

/-- Resolving goes past expansion: to expand what is resolved, by resolved rules, is to resolve the
expansion. -/
theorem expandWithin_resolveCalls (hknown : ∀ name, known name = true → rules[name]? = none)
    (depth : Nat) (e : Expr) :
    (e.resolveCalls known).expandWithin (rules.resolveCalls known) depth =
      (e.expandWithin rules depth).map (resolveCalls known) := by
  induction depth using Nat.strongRecOn generalizing e with
  | ind depth ihDepth =>
    induction e using inductionOnChildren with
    | step e ih =>
      have hinvocation := invocation?_resolveCalls hknown e
      cases h : e.invocation? rules with
      | none =>
        rw [h] at hinvocation
        rw [expandWithin_of_not_invocation depth h,
          expandWithin_of_not_invocation depth hinvocation]
        exact mapChildrenM_resolveCalls ih
      | some found =>
        obtain ⟨name, rule⟩ := found
        rw [h, Option.map_some] at hinvocation
        have hlength : (e.resolveCalls known).children.length = e.children.length := by
          rw [children_resolveCalls, List.length_map]
        cases depth with
        | zero =>
          rw [expandWithin_zero h, expandWithin_zero hinvocation]
          rfl
        | succ depth =>
          by_cases harity : e.children.length = rule.params.length
          · have hargs := mapM_map_comm ih
            rw [← children_resolveCalls] at hargs
            rw [expandWithin_succ depth h harity,
              expandWithin_succ depth hinvocation (hlength.trans harity), hargs]
            cases e.children.mapM (expandWithin rules (depth + 1)) with
            | error fault => rfl
            | ok args =>
              -- the body was resolved before the arguments are put in, and has to be after it
              show ((rule.body.resolveCalls known).substitute
                (.ofParams rule.params (args.map (resolveCalls known)))).expandWithin _ depth = _
              rw [← Substitution.resolveCalls_ofParams, ← resolveCalls_substitute]
              exact ihDepth depth (Nat.lt_succ_self depth) _
          · rw [expandWithin_of_arity_ne depth h harity,
              expandWithin_of_arity_ne depth hinvocation (hlength ▸ harity), hlength]
            rfl

end Expr

/-! ### Kernels -/

namespace Kernel

/-- The table has an entry of that name, and the kernel has no rule of that name, which would shadow
the entry. -/
def knows (k : Kernel) (t : Table) (name : String) : Bool :=
  t.contains name && !k.rules.contains name

theorem resolveKnown_eq (k : Kernel) (t : Table) :
    k.resolveKnown t =
      { k with
        instructions := k.instructions.map (·.mapExpressions (Expr.resolveCalls (k.knows t)))
        rules := Rules.resolveCalls (k.knows t) k.rules } := rfl

theorem getElem?_rules_of_knows {k : Kernel} {t : Table} {name : String} (h : k.knows t name = true) :
    k.rules[name]? = none := by
  have hrule := (Bool.and_eq_true_iff.1 h).2
  rw [Bool.not_eq_true', Std.ExtTreeMap.contains_eq_isSome_getElem?] at hrule
  exact Option.isNone_iff_eq_none.1 (Option.isSome_eq_false_iff.1 hrule)

/-- An expansion is that of the instructions, whether there are rules or not. -/
theorem expand_eq_map (k : Kernel) :
    k.expand = (k.instructions.mapM (Instruction.mapExpressionsM (Expr.expand k.rules))).map
      fun is => { k with instructions := is, rules := ∅ } := by
  by_cases hrules : k.rules.isEmpty
  · have hempty := Std.ExtTreeMap.isEmpty_iff.1 hrules
    have hsame (i : Instruction) : i.mapExpressionsM (Expr.expand k.rules) = .ok i := by
      rw [hempty]
      exact Instruction.mapExpressionsM_eq_ok.2 (.refl (fun x =>
        Expr.expandWithin_of_expanded _ (Expr.expanded_of_no_rules x)) i)
    rw [expand_of_no_rules hempty, mapM_eq_ok.2 (List.forall₂_same.2 fun i _ => hsame i)]
    simp only [Except.map, ← hempty]
  · rw [expand]
    simp only [hrules, Bool.false_eq_true, if_false]
    rfl

/-- A resolved kernel expands to the resolved expansion, and fails as the kernel does. -/
theorem expand_resolveKnown_eq_map (k : Kernel) (t : Table) :
    (k.resolveKnown t).expand = k.expand.map fun e =>
      { e with instructions :=
          e.instructions.map (·.mapExpressions (Expr.resolveCalls (k.knows t))) } := by
  have hcomm (x : Expr) :
      (x.resolveCalls (k.knows t)).expand (Rules.resolveCalls (k.knows t) k.rules) =
        (x.expand k.rules).map (Expr.resolveCalls (k.knows t)) :=
    Expr.expandWithin_resolveCalls (fun _ => getElem?_rules_of_knows) Expr.expansionDepth x
  rw [expand_eq_map, expand_eq_map, resolveKnown_eq]
  dsimp only
  rw [mapM_map_comm fun i _ => i.mapExpressionsM_mapExpressions hcomm]
  cases k.instructions.mapM (Instruction.mapExpressionsM (Expr.expand k.rules)) <;> rfl

theorem resolveKnown_resolveKnown (k : Kernel) (t : Table) :
    (k.resolveKnown t).resolveKnown t = k.resolveKnown t := by
  have hknows : (k.resolveKnown t).knows t = k.knows t := by
    funext name
    rw [knows, resolveKnown_eq]
    dsimp only [Rules.resolveCalls]
    rw [Std.ExtTreeMap.contains_map, knows]
  rw [resolveKnown_eq (k.resolveKnown t), hknows, resolveKnown_eq k]
  dsimp only [Rules.resolveCalls]
  rw [List.map_map, Std.ExtTreeMap.map_map]
  simp only [Function.comp_def, Instruction.mapExpressions_mapExpressions,
    Rule.resolveCalls, Expr.resolveCalls_resolveCalls]

/-- **Resolving known names commutes with expansion.**  A kernel and the kernel with its known names
resolved both expand, or both fail with the same fault.  If they expand, the second expansion differs
from the first in its instructions only, and these are those of the first with every call of a known
bare name pointed at the entry of that name, which leaves one choice.  To resolve known names once
more changes nothing. -/
theorem expand_resolveKnown (k : Kernel) (t : Table) :
    ((∃ e e', k.expand = .ok e ∧ (k.resolveKnown t).expand = .ok e' ∧
      e' = { e with instructions := e'.instructions } ∧
      ∀ is, List.Forall₂ (Instruction.Maps (Expr.ResolvedTo (k.knows t))) e.instructions is ↔
        is = e'.instructions) ∨
      ∃ fault, k.expand = .error fault ∧ (k.resolveKnown t).expand = .error fault) ∧
    (k.resolveKnown t).resolveKnown t = k.resolveKnown t := by
  refine ⟨?_, resolveKnown_resolveKnown k t⟩
  rw [expand_resolveKnown_eq_map]
  cases k.expand with
  | error fault => exact .inr ⟨fault, rfl, rfl⟩
  | ok e =>
    refine .inl ⟨e, _, rfl, rfl, rfl, fun is => ?_⟩
    exact Expr.forall₂_iff_eq_map fun i _ j =>
      Instruction.maps_iff (h := Expr.resolveCalls (k.knows t)) fun _ _ => Expr.resolvedTo_iff

end Kernel

end KernelTyping
