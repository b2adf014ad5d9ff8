import KernelTyping.Proofs.Inference.FixedPoint
import KernelTyping.Proofs.Inference.Rerun
import Mathlib.Data.List.Induction

/-!
# KernelTyping.Proofs.Inference.Schedule — the components in another order

A component is settled alike from any two progresses that agree on its members and on what their
writers read, whatever else has been found before (`exists_settlesTo`).  So, inside of one run,
it does not matter which of several components without a dependency between them comes first: two
lists of the same components, each of which comes after those that it depends on, lead to the same
types and the same recorded calls (`foldlM_schedule`).  The order inside of a component does matter,
and is the same in both lists.
-/

namespace KernelTyping.Inference

open Evaluation

variable {R : String → Prop} {ctx : Context} {complete : Bool} {fuel : Nat} {t : Table}

/-- Wherever a component is settled after those that it depends on, its members get the types in
`types`, and exactly the calls in `recorded` are recorded. -/
def SettlesTo (ctx : Context) (complete : Bool) (fuel : Nat) (t : Table) (types : Env)
    (component : List String) (recorded : Expr → Bool) : Prop :=
  ∀ p : Progress, p.Sound → t.Grows p.table →
    (∀ x ∈ component, p.env[x]? = (startEnv ctx.kernel)[x]?) →
    (∀ x ∈ component, ∀ i ∈ ctx.kernel.writers x, ∀ read ∈ i.readNames, read ∉ component →
      p.env[read]? = types[read]?) →
    ∃ q, settleComponent ctx (openDependencies ctx.kernel) complete fuel p component = .ok q ∧
      (∀ x ∈ component, q.env[x]? = types[x]?) ∧
      ∀ call, q.renames.contains call = (p.renames.contains call || recorded call)

/-- Where the components in `before` are settled, and nothing else has been looked at. -/
structure Midway (ctx : Context) (t : Table) (types : Env) (recorded : List String → Expr → Bool)
    (before : List (List String)) (p : Progress) : Prop where
  grows : t.Grows p.table
  sound : p.Sound
  found {x : String} : x ∈ before.flatten → p.env[x]? = types[x]?
  untouched {x : String} : x ∉ before.flatten → p.env[x]? = (startEnv ctx.kernel)[x]?
  keys (call : Expr) : p.renames.contains call = before.any (recorded · call)

theorem forall_members_ne {names : List String} {x : String} (hx : x ∉ names) :
    ∀ m ∈ names.map (Member.ofName ctx.kernel), m.name ≠ x := by
  refine List.forall_mem_map.2 fun y hy => ?_
  rintro rfl
  exact hx hy

/-- Components that are settled one after the other change types at their members only. -/
theorem steps_of_foldlM_settleComponent {d : Dependencies} {components : List (List String)}
    {p q : Progress} (h : components.foldlM (settleComponent ctx d complete fuel) p = .ok q) :
    Steps ctx (components.flatten.map (.ofName ctx.kernel)) p q := by
  refine steps_of_foldlM (fun names hnames _ _ h => (steps_of_settleComponent h).mono ?_) h
  exact List.map_subset _ fun x hx => List.mem_flatten.2 ⟨names, hnames, hx⟩

/-- What is no variable of the components keeps the type that it had at the start. -/
theorem env_eq_of_not_open {k : Kernel} {d : Dependencies} {components : List (List String)}
    (hcomponents : Dependencies.ComponentsOf d (openNames k) components) {p q : Progress}
    (h : components.foldlM (settleComponent ctx d complete fuel) p = .ok q) {x : String}
    (hx : x ∉ openNames k) : q.env[x]? = p.env[x]? :=
  (steps_of_foldlM_settleComponent h).env_eq
    (forall_members_ne (mt hcomponents.mem_flatten.1 hx))

/-- A component that is settled in the course of a run is settled alike wherever else it comes after
those that it depends on. -/
theorem exists_settlesTo (ctx : Context) (hgrows : GrowsTable ctx.infer)
    (hsame : SameTypes R ctx.infer) (honly : InstructionsOnly R ctx.kernel)
    (hlinked : Table.Linked R t) (ht : t.isEditing = true) {components : List (List String)}
    {component : List String}
    (hcomponents : Dependencies.ComponentsOf (openDependencies ctx.kernel) (openNames ctx.kernel)
      components) {p : Progress} (hp : components.foldlM
        (settleComponent ctx (openDependencies ctx.kernel) complete fuel)
        ⟨startEnv ctx.kernel, t, .empty⟩ = .ok p) (hmem : component ∈ components) :
    ∃ recorded, SettlesTo ctx complete fuel t p.env component recorded := by
  obtain ⟨before, after, rfl⟩ := List.append_of_mem hmem
  obtain ⟨c, d, hc, hd, hafter⟩ := foldlM_append_cons_eq_ok.1 hp
  have hbefore := steps_of_foldlM_settleComponent hc
  have hcomponent := steps_of_settleComponent hd
  obtain ⟨htc, hcsound⟩ := hbefore.grows hgrows (.start ht _)
  -- the run of the component without what was recorded before it
  have hbare : Progress.AlikeOn R (fun _ => True) c.renames.contains
      { c with renames := .empty } c :=
    ⟨hlinked.grows htc, fun _ => rfl, fun _ => (Bool.or_false _).symm, .start hcsound.editing _,
      hcsound⟩
  have hrun : Matches (Progress.AlikeOn R (fun _ => True) c.renames.contains)
      (settleComponent ctx (openDependencies ctx.kernel) complete fuel
        { c with renames := .empty } component) (.ok d) :=
    hd ▸ settleComponent_alikeOn hgrows hsame honly _ (fun _ _ => trivial)
      (fun _ _ _ _ _ _ => trivial) hbare
  obtain ⟨d', hd', hbared⟩ := hrun.exists_of_ok_right
  refine ⟨d'.renames.contains, fun q hq htq hstart hreads => ?_⟩
  -- what the members and what their writers read have for types in both runs
  have hctypes {x : String} (hx : x ∈ component) : c.env[x]? = (startEnv ctx.kernel)[x]? :=
    hbefore.env_eq (forall_members_ne (hcomponents.not_mem_before hx))
  have hlater {x : String} (hx : x ∈ component) :=
    env_eq_of_later hcomponents (steps_of_foldlM_settleComponent hafter) hx
  have hcreads {x read : String} (hx : x ∈ component) {i : Instruction}
      (hi : i ∈ ctx.kernel.writers x) (hread : read ∈ i.readNames) (hout : read ∉ component) :
      c.env[read]? = p.env[read]? := by
    rw [(hlater hx).2 i hi read hread]
    exact (hcomponent.env_eq (forall_members_ne hout)).symm
  let S (name : String) : Prop :=
    name ∈ component ∨ ∃ x ∈ component, ∃ i ∈ ctx.kernel.writers x, name ∈ i.readNames
  have halike : Progress.AlikeOn R S q.renames.contains { c with renames := .empty } q := by
    refine ⟨Table.Agree.grows hlinked htc htq, fun {name} hname => ?_,
      fun _ => (Bool.or_false _).symm, .start hcsound.editing _, hq⟩
    by_cases hin : name ∈ component
    · rw [hstart name hin]
      exact hctypes hin
    · obtain ⟨x, hx, i, hi, hread⟩ := hname.resolve_left hin
      rw [hreads x hx i hi name hread hin]
      exact hcreads hx hi hread hin
  have hagain : Matches (Progress.AlikeOn R S q.renames.contains) (.ok d')
      (settleComponent ctx (openDependencies ctx.kernel) complete fuel q component) :=
    hd' ▸ settleComponent_alikeOn hgrows hsame honly _ (fun x hx => .inl hx)
      (fun x hx i hi read hread => .inr ⟨x, hx, i, hi, hread⟩) halike
  obtain ⟨q', hq', hdone⟩ := hagain.exists_of_ok
  refine ⟨q', hq', fun x hx => ?_, hdone.keys⟩
  rw [← hdone.env (.inl hx), hbared.env trivial]
  exact (hlater hx).1.symm

/-- Where a component comes next that is settled alike wherever it stands, it is settled. -/
theorem Midway.settle (hgrows : GrowsTable ctx.infer) {types : Env}
    (htypes : ∀ x, x ∉ openNames ctx.kernel → types[x]? = (startEnv ctx.kernel)[x]?)
    {recorded : List String → Expr → Bool} {before after : List (List String)}
    {component : List String}
    (hcomponents : Dependencies.ComponentsOf (openDependencies ctx.kernel) (openNames ctx.kernel)
      (before ++ component :: after))
    (hsettles : SettlesTo ctx complete fuel t types component (recorded component)) {p : Progress}
    (h : Midway ctx t types recorded before p) :
    ∃ q, settleComponent ctx (openDependencies ctx.kernel) complete fuel p component = .ok q ∧
      Midway ctx t types recorded (before ++ [component]) q := by
  have hnames {x : String} (hx : x ∈ component) : x ∈ openNames ctx.kernel :=
    (hcomponents.mem x).1 ⟨component, by simp, hx⟩
  have hreads : ∀ x ∈ component, ∀ i ∈ ctx.kernel.writers x, ∀ read ∈ i.readNames,
      read ∉ component → p.env[read]? = types[read]? := by
    intro x hx i hi read hread hout
    rcases hcomponents.before_or_outside hx hout fun hopen =>
      mem_on_ofKernel (hnames hx) hopen hi hread with hbefore | ⟨hopen, hbefore⟩
    · exact h.found hbefore
    · rw [htypes read hopen]
      exact h.untouched hbefore
  obtain ⟨q, hq, hfound, hkeys⟩ := hsettles p h.sound h.grows
    (fun x hx => h.untouched (hcomponents.not_mem_before hx)) hreads
  have hsteps := steps_of_settleComponent hq
  obtain ⟨hpq, hqsound⟩ := hsteps.grows hgrows h.sound
  refine ⟨q, hq, h.grows.trans hpq, hqsound, fun {x} hx => ?_, fun {x} hx => ?_, fun call => ?_⟩
  · by_cases hin : x ∈ component
    · exact hfound x hin
    · rw [hsteps.env_eq (forall_members_ne hin)]
      exact h.found (by simpa [hin] using hx)
  · have hx : x ∉ before.flatten ∧ x ∉ component := by simpa [not_or] using hx
    rw [hsteps.env_eq (forall_members_ne hx.2)]
    exact h.untouched hx.1
  · rw [hkeys, h.keys]
    simp

/-- Components that are settled alike wherever they stand are settled one after the other, in any
order that respects the dependencies. -/
theorem foldlM_settlesTo (hgrows : GrowsTable ctx.infer) (ht : t.isEditing = true) {types : Env}
    (htypes : ∀ x, x ∉ openNames ctx.kernel → types[x]? = (startEnv ctx.kernel)[x]?)
    {recorded : List String → Expr → Bool} {components : List (List String)}
    (hcomponents : Dependencies.ComponentsOf (openDependencies ctx.kernel) (openNames ctx.kernel)
      components)
    (hsettles : ∀ c ∈ components, SettlesTo ctx complete fuel t types c (recorded c)) :
    ∃ q, components.foldlM (settleComponent ctx (openDependencies ctx.kernel) complete fuel)
        ⟨startEnv ctx.kernel, t, .empty⟩ = .ok q ∧
      Midway ctx t types recorded components q := by
  -- by induction on how many of the components are settled
  have hprefix (before after : List (List String)) (hsplit : components = before ++ after) :
      ∃ q, before.foldlM (settleComponent ctx (openDependencies ctx.kernel) complete fuel)
          ⟨startEnv ctx.kernel, t, .empty⟩ = .ok q ∧ Midway ctx t types recorded before q := by
    induction before using List.reverseRecOn generalizing after with
    | nil => exact ⟨_, rfl, .refl t, .start ht _, nofun, fun _ => rfl, fun _ => rfl⟩
    | append_singleton before component ih =>
      have hsplit : components = before ++ component :: after := by simpa using hsplit
      obtain ⟨p, hp, hmid⟩ := ih (component :: after) hsplit
      obtain ⟨q, hq, hmid⟩ := hmid.settle hgrows htypes (hsplit ▸ hcomponents)
        (hsettles component (by simp [hsplit]))
      refine ⟨q, ?_, hmid⟩
      rw [List.foldlM_append, hp, ok_bind, List.foldlM_cons, hq]
      rfl
  exact hprefix components [] (by simp)

/-- **Components in another order.**  Where one order in which each component comes after those that
it depends on leads to an end, every such order of the same components does, with the same types and
the same recorded calls. -/
theorem foldlM_schedule (ctx : Context) (hgrows : GrowsTable ctx.infer)
    (hsame : SameTypes R ctx.infer) (honly : InstructionsOnly R ctx.kernel)
    (hlinked : Table.Linked R t) (ht : t.isEditing = true)
    {components components' : List (List String)}
    (hcomponents : Dependencies.ComponentsOf (openDependencies ctx.kernel) (openNames ctx.kernel)
      components)
    (hcomponents' : Dependencies.ComponentsOf (openDependencies ctx.kernel) (openNames ctx.kernel)
      components')
    (hmem : ∀ c, c ∈ components' ↔ c ∈ components) {p : Progress}
    (hp : components.foldlM (settleComponent ctx (openDependencies ctx.kernel) complete fuel)
      ⟨startEnv ctx.kernel, t, .empty⟩ = .ok p) :
    ∃ q, components'.foldlM (settleComponent ctx (openDependencies ctx.kernel) complete fuel)
        ⟨startEnv ctx.kernel, t, .empty⟩ = .ok q ∧ p.Alike R q := by
  have hexists : ∀ c ∈ components, ∃ recorded, SettlesTo ctx complete fuel t p.env c recorded :=
    fun c hc => exists_settlesTo ctx hgrows hsame honly hlinked ht hcomponents hp hc
  choose! recorded hsettles using hexists
  have htypes (x : String) (hx : x ∉ openNames ctx.kernel) :
      p.env[x]? = (startEnv ctx.kernel)[x]? := env_eq_of_not_open hcomponents hp hx
  obtain ⟨p', hp', hmid⟩ := foldlM_settlesTo hgrows ht htypes hcomponents hsettles
  obtain rfl := Except.ok.inj (hp.symm.trans hp')
  obtain ⟨q, hq, hmid'⟩ := foldlM_settlesTo hgrows ht htypes hcomponents'
    fun c hc => hsettles c ((hmem c).1 hc)
  refine ⟨q, hq, Table.Agree.grows hlinked hmid.grows hmid'.grows, fun {x} _ => ?_, fun call => ?_,
    hmid.sound, hmid'.sound⟩
  · by_cases hx : x ∈ components'.flatten
    · exact (hmid'.found hx).symm
    · rw [hmid'.untouched hx]
      exact htypes x fun hopen => hx (hcomponents'.mem_flatten.2 hopen)
  · rw [hmid.keys, hmid'.keys, Bool.false_or, Bool.eq_iff_iff, List.any_eq_true, List.any_eq_true]
    simp only [hmem]

end KernelTyping.Inference
