import KernelTyping.Proofs.Inference.Soundness

/-!
# KernelTyping.Proofs.Inference.Transparency — substitution rules do not matter

Inference looks at the expansion of a kernel, but it renames calls in the kernel as it is written:
an invocation of a rule stays where its expansion holds no recorded call, and is replaced where it
does.  What it finds does not depend on that (`finishKernel_expand`).  So inference on a kernel and
inference on its expansion succeed together, leave the same table, and the typed kernel expands to
the typed expansion (`rules_transparent`).
-/

namespace KernelTyping

open Evaluation

namespace Inference

variable {target : Target} {infer : Inference} {complete : Bool} {fuel : Nat} {k e : Kernel}

/-- The first kernel expands to the second one, and the tables are the same. -/
def ExpandsTo (typed typed' : Kernel × Table) : Prop :=
  typed.1.expand = .ok typed'.1 ∧ typed.2 = typed'.2

theorem normal_of_no_rules {m : Renames} (h : m.Normal k.rules) (he : e.rules = ∅) :
    m.Normal e.rules := by
  intro call hcall
  rw [he]
  exact ⟨(h call hcall).1, call.expanded_of_no_rules⟩

theorem checkVariablesTyped_eq {k k' : Kernel} (hname : k'.name = k.name)
    (hdeclarations : k'.declarations = k.declarations) :
    k'.checkVariablesTyped = k.checkVariablesTyped := by
  unfold Kernel.checkVariablesTyped
  rw [hname, hdeclarations]

/-- What was found is filled into a kernel and into its expansion alike. -/
theorem finishKernel_expand (he : k.expand = .ok e) {p : Progress}
    (hnormal : p.renames.Normal k.rules) :
    Matches ExpandsTo (finishKernel complete k p) (finishKernel complete e p) := by
  have herules := Kernel.rules_of_expand he
  have htypes := Kernel.expand_withTypes he p.env.toList
  obtain ⟨a, ha, hsame, hexpand⟩ := Kernel.rename_withTypes_spec hnormal he p.env.toList
  obtain ⟨b, hb, hsame', hexpand'⟩ := Kernel.rename_withTypes_spec
    (normal_of_no_rules hnormal herules) (Kernel.expand_of_no_rules herules) p.env.toList
  -- the renamed expansion has no rules left, so it is what the renamed kernel expands to
  have hbrules : b.rules = ∅ := by
    rw [hsame']
    show (e.withTypes p.env.toList).rules = ∅
    rw [Kernel.rules_withTypes, herules]
  have hab : a.expand = .ok b := by
    rw [hexpand, ← hexpand', Kernel.expand_of_no_rules hbrules]
  have hname : b.name = a.name := Kernel.name_of_expand hab
  have hfunctions : a.checkFunctionsResolved p.table = b.checkFunctionsResolved p.table := by
    unfold Kernel.checkFunctionsResolved
    rw [hab, Kernel.expand_of_no_rules hbrules, hname]
  have hvariables : a.checkVariablesTyped = b.checkVariablesTyped :=
    (checkVariablesTyped_eq hname (Kernel.declarations_of_expand hab)).symm
  unfold finishKernel
  rw [ha, hb, ok_bind, ok_bind, hfunctions, hvariables]
  split
  · exact .bind_same fun _ _ => .bind_same fun _ _ => .ok ⟨hab, rfl⟩
  · exact .ok ⟨hab, rfl⟩

theorem inferWith_expand (hgrows : GrowsTable infer) (he : k.expand = .ok e) (t : Table) :
    Matches ExpandsTo (inferWith target infer complete fuel k t)
      (inferWith target infer complete fuel e t) := by
  have hee := Kernel.expand_of_no_rules (Kernel.rules_of_expand he)
  unfold inferWith
  rw [Kernel.name_of_expand he, he, hee, Outcome.lift_ok]
  by_cases ht : t.isEditing
  · simp only [ht, Bool.not_true, Bool.false_eq_true, if_false, ok_bind]
    refine .bind_same fun p hp => ?_
    have hnormal := normal_of_inferExpanded ⟨target, e, startEnv e, infer⟩ hgrows he ht hp
    exact (finishKernel_expand he hnormal).lift
  · simp only [ht, Bool.not_false, if_true]
    exact .error _

end Inference

open Inference

/-- Inference on a kernel and on its expansion: the results expand to one another, or the faults are
the same. -/
theorem inferKernel_expand (target : Target) (fuel : Nat) (complete : Bool) {k e : Kernel}
    (he : k.expand = .ok e) (t : Table) :
    Matches ExpandsTo (inferKernel target fuel complete k t)
      (inferKernel target fuel complete e t) := by
  cases fuel with
  | zero => exact .error _
  | succ fuel => exact inferWith_expand (inferKernel_grows target fuel true) he t

variable {target : Target} {fuel : Nat} {complete : Bool} {k e : Kernel} {t : Table}

/-- **Substitution rules are transparent.**  Inference on a kernel succeeds exactly if inference on
its expansion does, and stops for the same cause otherwise.  Both leave the same table, and the
typed kernel expands to the typed expansion. -/
theorem rules_transparent (he : k.expand = .ok e) :
    ((∃ typed, inferKernel target fuel complete k t = .ok typed) ↔
      ∃ typed, inferKernel target fuel complete e t = .ok typed) ∧
    (∀ k' t' e' u', inferKernel target fuel complete k t = .ok (k', t') →
      inferKernel target fuel complete e t = .ok (e', u') → k'.expand = .ok e' ∧ t' = u') ∧
    ∀ halt, inferKernel target fuel complete k t = .error halt ↔
      inferKernel target fuel complete e t = .error halt := by
  have hmatches := inferKernel_expand target fuel complete he t
  generalize inferKernel target fuel complete k t = x at hmatches ⊢
  generalize inferKernel target fuel complete e t = y at hmatches ⊢
  cases hmatches with
  | @ok a b hab =>
    refine ⟨⟨fun _ => ⟨b, rfl⟩, fun _ => ⟨a, rfl⟩⟩, ?_, fun _ => ?_⟩
    · intro k' t' e' u' ha hb
      obtain rfl := Except.ok.inj ha
      obtain rfl := Except.ok.inj hb
      exact hab
    · exact ⟨nofun, nofun⟩
  | error halt =>
    refine ⟨⟨?_, ?_⟩, ?_, fun _ => Iff.rfl⟩
    · rintro ⟨_, h⟩
      cases h
    · rintro ⟨_, h⟩
      cases h
    · exact fun _ _ _ _ h => nomatch h

/-- A kernel with a rule.  The call in its body resolves differently at its two invocations. -/
def ruledKernel : Kernel := { Kernel.empty "ruled" with
  args := [⟨"x", .known .float32, .input⟩, ⟨"n", .known (.scalar .int8), .input⟩]
  temporaries := [⟨"u", .unknown, .temporary⟩, ⟨"w", .unknown, .temporary⟩]
  rules := (∅ : Rules).insert "magnitude" ⟨["a"], .call (.entry "abs") [.var "a"] []⟩
  instructions := [
    ⟨"u", .assign (.var "u") (.call (.bare "magnitude") [.var "x"] [])⟩,
    ⟨"w", .assign (.var "w") (.call (.bare "magnitude") [.var "n"] [])⟩] }

/-- The instructions of `ruledKernel` without its rule, for what the two invocations call. -/
def unruled (onFloat onInt : String) : List Instruction := [
  ⟨"u", .assign (.var "u") (.call (.entry onFloat) [.var "x"] [])⟩,
  ⟨"w", .assign (.var "w") (.call (.entry onInt) [.var "n"] [])⟩]

def unruledKernel : Kernel := { ruledKernel with rules := ∅, instructions := unruled "abs" "abs" }

theorem expand_ruledKernel : ruledKernel.expand = .ok unruledKernel := by cbv

theorem instructions_ruledKernel :
    (inferKernel .cLike 8 true ruledKernel absTable).map (·.1.expand.map (·.instructions)) =
      .ok (.ok (unruled "abs_0" "abs_1")) := by cbv

theorem rules_transparent_ruledKernel :
    ∃ k' t' e', ruledKernel.expand = .ok unruledKernel ∧
      inferKernel .cLike 8 true ruledKernel absTable = .ok (k', t') ∧
      inferKernel .cLike 8 true unruledKernel absTable = .ok (e', t') ∧
      k'.expand = .ok e' ∧ e'.instructions = unruled "abs_0" "abs_1" := by
  obtain ⟨⟨k', t'⟩, hk, hinstructions⟩ := map_eq_ok.1 instructions_ruledKernel
  obtain ⟨hiff, hsame, -⟩ := @rules_transparent .cLike 8 true _ _ absTable expand_ruledKernel
  obtain ⟨⟨e', u'⟩, he'⟩ := hiff.1 ⟨_, hk⟩
  obtain ⟨hexpand, rfl⟩ := hsame _ _ _ _ hk he'
  dsimp only at hinstructions
  rw [hexpand] at hinstructions
  exact ⟨k', t', e', expand_ruledKernel, hk, he', hexpand, Except.ok.inj hinstructions⟩

end KernelTyping
