import KernelTyping.Proofs.Dependency
import KernelTyping.Proofs.Inference.Writers
import KernelTyping.Proofs.Table.Transactions

/-!
# KernelTyping.Proofs.Inference.Steps — inference as a sequence of steps

All that inference on one kernel does to its progress is to record successful attempts: a type that
the writers of a variable assign to it, or the calls of an instruction (`Steps`).  What a step keeps
a run keeps.  So tables only grow (`inferKernel_grows`), recorded calls have entries, and types
change only at the variables that are visited.  A loop that comes to an end is described turn by
turn (`Settling`), for the proofs that follow it along.
-/

namespace KernelTyping

open Evaluation

namespace Inference

/-! ### Progress -/

namespace Progress

/-- A progress inside a transaction in which every recorded call has an entry of the table. -/
structure Sound (p : Progress) : Prop where
  editing : p.table.isEditing = true
  proper : p.renames.Proper
  entry {call : Expr} {name : String} :
    p.renames.get? call = some name → p.table.contains name = true

/-- The progress with a type that was found for a variable. -/
def assign (p : Progress) (name : String) (type : ElementType) (s : State) : Progress :=
  { p.record s with env := p.env.insert name type }

/-- All recorded calls have a property. -/
def RecordsOnly (N : Expr → Prop) (p : Progress) : Prop :=
  ∀ call, p.renames.contains call = true → N call

variable {p : Progress} {s : State}

theorem getElem?_assign (p : Progress) (name : String) (type : ElementType) (s : State)
    (other : String) :
    (p.assign name type s).env[other]? = if name = other then some type else p.env[other]? := by
  simp [assign, Std.ExtTreeMap.getElem?_insert]

/-- A type that was found before is found again. -/
theorem assign_of_env_eq {name : String} {type : ElementType} (h : p.env[name]? = some type) :
    p.assign name type s = p.record s := by
  have henv : (p.assign name type s).env = p.env := by
    refine Std.ExtTreeMap.ext_getElem? fun other => ?_
    rw [getElem?_assign]
    split
    case isTrue hname => rw [← h, hname]
    case isFalse => rfl
  calc p.assign name type s = { p.record s with env := (p.assign name type s).env } := rfl
    _ = p.record s := by rw [henv]; rfl

namespace Sound

variable {ctx : Context}

theorem start {table : Table} (h : table.isEditing = true) (env : Env) :
    Sound ⟨env, table, .empty⟩ where
  editing := h
  proper := .empty
  entry hname := nomatch hname

/-- What a sound evaluation found is recorded soundly. -/
theorem record (hp : p.Sound) (hs : s.Sound) (hgrows : p.table.Grows s.table) :
    (p.record s).Sound where
  editing := hs.editing
  proper := hp.proper.merge _
  entry {call name} hname := by
    rw [Progress.record, Renames.get?_merge hs.proper, Option.or_eq_some_iff] at hname
    rcases hname with hname | ⟨-, hname⟩
    · exact hs.entry hname
    · exact hgrows.contains (hp.entry hname)

theorem withEnv (hp : p.Sound) (env : Env) : Sound { p with env } :=
  ⟨hp.editing, hp.proper, hp.entry⟩

/-- An attempt from a sound progress that finds something leaves a sound state of a table that has
grown. -/
theorem attempt {α : Type} {x : Eval (Option α)} {a : α} (hp : p.Sound)
    (hx : Evolves (fun s s' => s.Sound → s.table.Grows s'.table ∧ s'.Sound) x)
    (h : Inference.attempt x p.table = .ok (some a, s)) : p.table.Grows s.table ∧ s.Sound :=
  hx (attempt_eq_some.1 h) (.start hp.editing)

end Sound

end Progress

/-! ### Steps -/

/-- One progress comes from another by recording what successful attempts found, at members of the
list or at instructions as a whole. -/
inductive Steps (ctx : Context) (members : List Member) : Progress → Progress → Prop where
  | refl (p : Progress) : Steps ctx members p p
  | assign {p q : Progress} {m : Member} {type : ElementType} {s : State} :
    Steps ctx members p q → m ∈ members →
      attempt (writtenType { ctx with env := q.env } m) q.table = .ok (some type, s) →
      Steps ctx members p (q.assign m.name type s)
  | resolve {p q : Progress} {i : Instruction} {s : State} :
    Steps ctx members p q → i ∈ ctx.kernel.instructions →
      attempt (visit { ctx with env := q.env } i) q.table = .ok (some (), s) →
      Steps ctx members p (q.record s)

namespace Steps

variable {ctx : Context} {members members' : List Member} {p q r : Progress}

theorem trans (hpq : Steps ctx members p q) (hqr : Steps ctx members q r) :
    Steps ctx members p r := by
  induction hqr with
  | refl => exact hpq
  | assign _ hm h ih => exact ih.assign hm h
  | resolve _ hi h ih => exact ih.resolve hi h

theorem mono (hsub : members ⊆ members') (h : Steps ctx members p q) :
    Steps ctx members' p q := by
  induction h with
  | refl => exact .refl _
  | assign _ hm h ih => exact ih.assign (hsub hm) h
  | resolve _ hi h ih => exact ih.resolve hi h

/-- Tables only grow, and progress stays sound. -/
theorem grows (hinfer : GrowsTable ctx.infer) (h : Steps ctx members p q) (hp : p.Sound) :
    p.table.Grows q.table ∧ q.Sound := by
  induction h with
  | refl => exact ⟨.refl _, hp⟩
  | @assign q m type s _ _ hattempt ih =>
    obtain ⟨hgrows, hq⟩ := ih
    obtain ⟨hs, hsound⟩ := hq.attempt
      (evolution_writtenType { ctx with env := q.env } (evolution_grows hinfer) m) hattempt
    exact ⟨hgrows.trans hs, (hq.record hsound hs).withEnv _⟩
  | @resolve q i s _ _ hattempt ih =>
    obtain ⟨hgrows, hq⟩ := ih
    obtain ⟨hs, hsound⟩ := hq.attempt
      (evolution_visit { ctx with env := q.env } (evolution_grows hinfer) i) hattempt
    exact ⟨hgrows.trans hs, hq.record hsound hs⟩

/-- Types change only at the members. -/
theorem env_eq (h : Steps ctx members p q) {name : String}
    (hname : ∀ m ∈ members, m.name ≠ name) : q.env[name]? = p.env[name]? := by
  induction h with
  | refl => rfl
  | assign _ hm _ ih =>
    rw [Progress.getElem?_assign, if_neg (hname _ hm)]
    exact ih
  | resolve _ _ _ ih => exact ih

/-- To resolve calls changes no type. -/
theorem env_eq_of_nil (h : Steps ctx [] p q) : q.env = p.env :=
  Std.ExtTreeMap.ext_getElem? fun _ => h.env_eq nofun

/-- Only calls are recorded that the instructions visit. -/
theorem recordsOnly {N : Expr → Prop} (hinfer : GrowsTable ctx.infer)
    (hmembers : ∀ m ∈ members, ∀ i ∈ m.writers, i ∈ ctx.kernel.instructions)
    (hN : ∀ i ∈ ctx.kernel.instructions, CallsAt N i) (h : Steps ctx members p q) (hp : p.Sound)
    (hpN : p.RecordsOnly N) : q.RecordsOnly N := by
  have hrecord {q : Progress} {α : Type} {x : Eval (Option α)} {a : α} {s : State}
      (hq : q.Sound) (hx : Evolves (fun s s' => s.Sound → s.table.Grows s'.table ∧ s'.Sound) x)
      (hxN : RecordsOnly N x) (hattempt : attempt x q.table = .ok (some a, s))
      (hqN : q.RecordsOnly N) : (q.record s).RecordsOnly N := by
    intro call hcontains
    have hs := hxN (.start q.table) fun _ h => nomatch h
    rw [attempt_eq_some.1 hattempt] at hs
    have hmerge : (q.renames.merge s.renames).contains call = true := hcontains
    rw [Renames.contains, Renames.get?_merge (hq.attempt hx hattempt).2.proper,
      Option.isSome_or, Bool.or_eq_true] at hmerge
    exact hmerge.elim (hs call) (hqN call)
  induction h with
  | refl => exact hpN
  | @assign q m type s hsteps hm hattempt ih =>
    obtain ⟨-, hq⟩ := hsteps.grows hinfer hp
    refine hrecord hq ?_ ?_ hattempt ih
    · exact evolution_writtenType { ctx with env := q.env } (evolution_grows hinfer) m
    · exact (compatible_recordsOnly.writtenType fun i hi =>
        relatedAt_recordsOnly (hN i (hmembers m hm i hi))).2
  | @resolve q i s hsteps hi hattempt ih =>
    obtain ⟨-, hq⟩ := hsteps.grows hinfer hp
    refine hrecord hq ?_ ?_ hattempt ih
    · exact evolution_visit { ctx with env := q.env } (evolution_grows hinfer) i
    · exact (compatible_recordsOnly.visit (relatedAt_recordsOnly (hN i hi))).2

end Steps

/-! ### Contexts that agree -/

section Congruence

variable (ctx ctx' : Context) {members : List Member} {onePass complete : Bool}

/-- Where two contexts agree on what writers assign to the members, their loops do the same. -/
theorem settle_congr (hname : ctx'.kernel.name = ctx.kernel.name)
    (hwritten : ∀ m ∈ members, ∀ env,
      writtenType { ctx' with env } m = writtenType { ctx with env } m)
    {fuel : Nat} {queue : List Member} (hqueue : queue ⊆ members) (failed : NameSet)
    (changed : Bool) (p : Progress) :
    settle ctx' members onePass complete fuel queue failed changed p =
      settle ctx members onePass complete fuel queue failed changed p := by
  induction fuel generalizing queue failed changed p with
  | zero => rfl
  | succ fuel ih =>
    cases queue with
    | nil =>
      rw [settle, settle]
      split
      · exact ih (List.Subset.refl members) failed false p
      · rfl
    | cons m queue =>
      obtain ⟨hm, hqueue⟩ := List.cons_subset.1 hqueue
      rw [settle, settle, hwritten m hm]
      refine bind_congr fun r => ?_
      obtain ⟨found, s⟩ := r
      cases found with
      | some type =>
        dsimp only
        split
        · exact ih hqueue failed changed _
        · exact ih hqueue ∅ true _
      | none =>
        dsimp only
        split
        · rw [hname]
        · exact ih (List.append_subset.2 ⟨hqueue, by simpa using hm⟩) _ changed p

theorem resolveCalls_congr {i : Instruction}
    (hvisit : ∀ env, visit { ctx' with env } i = visit { ctx with env } i) (p : Progress) :
    resolveCalls ctx' p i = resolveCalls ctx p i := by
  unfold resolveCalls
  rw [hvisit]

end Congruence

/-! ### Loops as steps -/

section Loops

variable {ctx : Context} {members : List Member} {onePass complete : Bool}

/-- A loop that comes to an end with progress `q`, turn by turn. -/
inductive Settling (ctx : Context) (members : List Member) (onePass complete : Bool)
    (q : Progress) : Nat → List Member → NameSet → Bool → Progress → Prop where
  | again {fuel : Nat} {failed : NameSet} {p : Progress} (honePass : onePass = false)
    (h : Settling ctx members onePass complete q fuel members failed false p) :
    Settling ctx members onePass complete q (fuel + 1) [] failed true p
  | done {fuel : Nat} {failed : NameSet} {changed : Bool}
    (hchanged : changed = true → onePass = true) :
    Settling ctx members onePass complete q (fuel + 1) [] failed changed q
  | confirm {fuel : Nat} {m : Member} {queue : List Member} {failed : NameSet} {changed : Bool}
    {p : Progress} {type : ElementType} {s : State}
    (hattempt : attempt (writtenType { ctx with env := p.env } m) p.table = .ok (some type, s))
    (henv : p.env[m.name]? = some type)
    (h : Settling ctx members onePass complete q fuel queue failed changed (p.record s)) :
    Settling ctx members onePass complete q (fuel + 1) (m :: queue) failed changed p
  | assign {fuel : Nat} {m : Member} {queue : List Member} {failed : NameSet} {changed : Bool}
    {p : Progress} {type : ElementType} {s : State}
    (hattempt : attempt (writtenType { ctx with env := p.env } m) p.table = .ok (some type, s))
    (henv : p.env[m.name]? ≠ some type)
    (h : Settling ctx members onePass complete q fuel queue ∅ true (p.assign m.name type s)) :
    Settling ctx members onePass complete q (fuel + 1) (m :: queue) failed changed p
  | defer {fuel : Nat} {m : Member} {queue : List Member} {failed : NameSet} {changed : Bool}
    {p : Progress} {s : State}
    (hattempt : attempt (writtenType { ctx with env := p.env } m) p.table = .ok (none, s))
    (hfailed : failed.contains m.name = false)
    (h : Settling ctx members onePass complete q fuel (queue ++ [m]) (failed.insert m.name)
      changed p) :
    Settling ctx members onePass complete q (fuel + 1) (m :: queue) failed changed p
  | giveUp {fuel : Nat} {m : Member} {queue : List Member} {failed : NameSet} {changed : Bool}
    {s : State}
    (hattempt : attempt (writtenType { ctx with env := q.env } m) q.table = .ok (none, s))
    (hfailed : failed.contains m.name = true) (hcomplete : complete = false) :
    Settling ctx members onePass complete q (fuel + 1) (m :: queue) failed changed q

theorem settle_eq_ok {fuel : Nat} {queue : List Member} {failed : NameSet} {changed : Bool}
    {p q : Progress} :
    settle ctx members onePass complete fuel queue failed changed p = .ok q ↔
      Settling ctx members onePass complete q fuel queue failed changed p := by
  constructor
  · intro h
    induction fuel generalizing queue failed changed p with
    | zero => cases h
    | succ fuel ih =>
      cases queue with
      | nil =>
        rw [settle] at h
        split at h
        case isTrue hchanged =>
          obtain ⟨rfl, honePass⟩ : changed = true ∧ onePass = false := by simpa using hchanged
          exact .again honePass (ih h)
        case isFalse hchanged =>
          obtain rfl := Except.ok.inj h
          exact .done (by simpa using hchanged)
      | cons m queue =>
        rw [settle] at h
        obtain ⟨⟨found, s⟩, hattempt, h⟩ := bind_eq_ok.1 h
        cases found with
        | some type =>
          dsimp only at h
          split at h
          case isTrue henv => exact .confirm hattempt henv (ih h)
          case isFalse henv => exact .assign hattempt henv (ih h)
        | none =>
          dsimp only at h
          split at h
          case isTrue hfailed =>
            split at h
            · cases h
            case isFalse hcomplete =>
              obtain rfl := Except.ok.inj h
              exact .giveUp hattempt hfailed (by simpa using hcomplete)
          case isFalse hfailed =>
            exact .defer hattempt (by rwa [Bool.not_eq_true] at hfailed) (ih h)
  · intro h
    induction h with
    | again honePass _ ih =>
      rw [settle, if_pos (by simp [honePass])]
      exact ih
    | done hchanged =>
      rw [settle, if_neg (by simpa using hchanged)]
    | confirm hattempt henv _ ih =>
      rw [settle]
      exact bind_eq_ok.2 ⟨_, hattempt, (if_pos henv).trans ih⟩
    | assign hattempt henv _ ih =>
      rw [settle]
      exact bind_eq_ok.2 ⟨_, hattempt, (if_neg henv).trans ih⟩
    | defer hattempt hfailed _ ih =>
      rw [settle]
      exact bind_eq_ok.2 ⟨_, hattempt, (if_neg (by simp [hfailed])).trans ih⟩
    | giveUp hattempt hfailed hcomplete =>
      rw [settle]
      refine bind_eq_ok.2 ⟨_, hattempt, (if_pos hfailed).trans ?_⟩
      rw [hcomplete]
      rfl

/-- A pass that goes on until nothing changes is a sequence of steps. -/
theorem Settling.steps {fuel : Nat} {queue : List Member} {failed : NameSet} {changed : Bool}
    {p q : Progress} (h : Settling ctx members onePass complete q fuel queue failed changed p)
    (hqueue : queue ⊆ members) : Steps ctx members p q := by
  induction h with
  | again _ _ ih => exact ih (List.Subset.refl members)
  | done _ => exact .refl q
  | @confirm _ m _ _ _ p _ _ hattempt henv _ ih =>
    obtain ⟨hm, hqueue⟩ := List.cons_subset.1 hqueue
    have hstep := (Steps.refl p).assign hm hattempt
    rw [Progress.assign_of_env_eq (p := p) henv] at hstep
    exact hstep.trans (ih hqueue)
  | @assign _ m _ _ _ p _ _ hattempt _ _ ih =>
    obtain ⟨hm, hqueue⟩ := List.cons_subset.1 hqueue
    exact ((Steps.refl p).assign hm hattempt).trans (ih hqueue)
  | defer _ _ _ ih =>
    obtain ⟨hm, hqueue⟩ := List.cons_subset.1 hqueue
    exact ih (List.append_subset.2 ⟨hqueue, by simpa using hm⟩)
  | giveUp _ _ _ => exact .refl q

theorem steps_of_settleComponent {d : Dependencies} {fuel : Nat} {p q : Progress}
    {names : List String} (h : settleComponent ctx d complete fuel p names = .ok q) :
    Steps ctx (names.map (.ofName ctx.kernel)) p q :=
  (settle_eq_ok.1 h).steps (List.Subset.refl _)

theorem steps_of_resolveCalls {p q : Progress} {i : Instruction}
    (hi : i ∈ ctx.kernel.instructions) (h : resolveCalls ctx p i = .ok q) :
    Steps ctx members p q := by
  obtain ⟨⟨found, s⟩, hattempt, h⟩ := bind_eq_ok.1 h
  cases found with
  | some _ =>
    obtain rfl := Except.ok.inj h
    exact (Steps.refl p).resolve hi hattempt
  | none =>
    obtain rfl := Except.ok.inj h
    exact .refl p

/-- A loop whose rounds are steps is a sequence of steps. -/
theorem steps_of_foldlM {α : Type} {f : Progress → α → Outcome Progress} {xs : List α}
    (hf : ∀ x ∈ xs, ∀ p q, f p x = .ok q → Steps ctx members p q) {p q : Progress}
    (h : xs.foldlM f p = .ok q) : Steps ctx members p q := by
  induction xs generalizing p with
  | nil =>
    obtain rfl := Except.ok.inj h
    exact .refl p
  | cons x xs ih =>
    rw [List.foldlM_cons] at h
    obtain ⟨r, hr, h⟩ := bind_eq_ok.1 h
    exact (hf x (by simp) p r hr).trans (ih (fun y hy => hf y (by simp [hy])) h)

theorem steps_of_foldlM_resolveCalls {is : List Instruction} (his : is ⊆ ctx.kernel.instructions)
    {p q : Progress} (h : is.foldlM (resolveCalls ctx) p = .ok q) : Steps ctx members p q :=
  steps_of_foldlM (fun _ hi _ _ h => steps_of_resolveCalls (his hi) h) h

end Loops

/-! ### Inference on a kernel -/

/-- The members of the components of a kernel. -/
def openMembers (k : Kernel) : List Member := (openNames k).map (.ofName k)

/-- The context in which inference types an expanded kernel. -/
abbrev inferContext (target : Target) (fuel : Nat) (e : Kernel) : Context :=
  ⟨target, e, startEnv e, inferKernel target fuel true⟩

/-- How the open variables of a kernel depend on one another. -/
def openDependencies (k : Kernel) : Dependencies := .ofKernel k (openNames k)

/-- The components of the open variables of the kernel. -/
def openComponents (k : Kernel) : List (List String) :=
  (Dependencies.ofKernel k (openNames k)).components (openNames k)

theorem on_ofKernel_subset {k : Kernel} {names : List String} {x y : String}
    (h : y ∈ (Dependencies.ofKernel k names).on x) : y ∈ names := by
  rw [Dependencies.on_ofKernel] at h
  split at h
  · rw [Dependencies.reads, List.mem_eraseDups, List.mem_filter] at h
    simpa using h.2
  · cases h

theorem componentsOf_ofKernel (k : Kernel) (names : List String) :
    Dependencies.ComponentsOf (.ofKernel k names) names
      ((Dependencies.ofKernel k names).components names) :=
  Dependencies.componentsOf_components fun _ _ => on_ofKernel_subset

variable {ctx : Context} {complete : Bool} {fuel : Nat}

/-- Inference on an expanded kernel: the components are settled, then all calls are resolved. -/
theorem inferExpanded_eq_ok {t : Table} {q : Progress} :
    inferExpanded ctx complete fuel t = .ok q ↔
      let d := Dependencies.ofKernel ctx.kernel (openNames ctx.kernel)
      ∃ p, (openComponents ctx.kernel).foldlM (settleComponent ctx d complete fuel)
          ⟨startEnv ctx.kernel, t, .empty⟩ = .ok p ∧
        (ctx.kernel.instructions.filter (!·.isDataOblivious)).foldlM (resolveCalls ctx) p =
          .ok q :=
  bind_eq_ok

theorem steps_of_component {names : List String} (hnames : names ∈ openComponents ctx.kernel)
    {d : Dependencies} {p q : Progress} (h : settleComponent ctx d complete fuel p names = .ok q) :
    Steps ctx (openMembers ctx.kernel) p q := by
  have hcomponents := componentsOf_ofKernel ctx.kernel (openNames ctx.kernel)
  have hsub : names ⊆ openNames ctx.kernel := fun x hx => (hcomponents.mem x).1 ⟨names, hnames, hx⟩
  exact (steps_of_settleComponent h).mono (List.map_subset _ hsub)

theorem steps_of_components {d : Dependencies} {p q : Progress}
    (h : (openComponents ctx.kernel).foldlM (settleComponent ctx d complete fuel) p = .ok q) :
    Steps ctx (openMembers ctx.kernel) p q :=
  steps_of_foldlM (fun _ hnames _ _ h => steps_of_component hnames h) h

/-- Inference gets to a component of the kernel with progress `p`. -/
def ReachesComponent (ctx : Context) (complete : Bool) (fuel : Nat) (t : Table)
    (names : List String) (p : Progress) : Prop :=
  ∃ before after, openComponents ctx.kernel = before ++ names :: after ∧
    before.foldlM (settleComponent ctx (openDependencies ctx.kernel) complete fuel)
      ⟨startEnv ctx.kernel, t, .empty⟩ = .ok p

namespace ReachesComponent

variable {t : Table} {names : List String} {p : Progress}

theorem mem (h : ReachesComponent ctx complete fuel t names p) :
    names ∈ openComponents ctx.kernel := by
  obtain ⟨before, after, hsplit, -⟩ := h
  simp [hsplit]

theorem subset (h : ReachesComponent ctx complete fuel t names p) : names ⊆ openNames ctx.kernel :=
  fun name hname => ((componentsOf_ofKernel ctx.kernel _).mem name).1 ⟨names, h.mem, hname⟩

theorem steps (h : ReachesComponent ctx complete fuel t names p) :
    Steps ctx (openMembers ctx.kernel) ⟨startEnv ctx.kernel, t, .empty⟩ p := by
  obtain ⟨before, after, hsplit, hp⟩ := h
  refine steps_of_foldlM (fun names hnames _ _ h => steps_of_component ?_ h) hp
  simp [hsplit, hnames]

theorem grows (h : ReachesComponent ctx complete fuel t names p) (hinfer : GrowsTable ctx.infer)
    (ht : t.isEditing = true) : t.Grows p.table ∧ p.Sound :=
  h.steps.grows hinfer (.start ht _)

end ReachesComponent

theorem steps_of_inferExpanded {t : Table} {q : Progress}
    (h : inferExpanded ctx complete fuel t = .ok q) :
    Steps ctx (openMembers ctx.kernel) ⟨startEnv ctx.kernel, t, .empty⟩ q := by
  obtain ⟨p, hp, hq⟩ := inferExpanded_eq_ok.1 h
  exact (steps_of_components hp).trans
    (steps_of_foldlM_resolveCalls (List.filter_subset_self _) hq)

variable {target : Target} {infer : Inference}

/-- Inference on a kernel: it is expanded, its types are found, and they are filled in. -/
theorem inferWith_eq_ok {k k' : Kernel} {t t' : Table} :
    inferWith target infer complete fuel k t = .ok (k', t') ↔
      t.isEditing = true ∧ ∃ e p, k.expand = .ok e ∧
        inferExpanded ⟨target, e, startEnv e, infer⟩ complete fuel t = .ok p ∧
        finishKernel complete k p = .ok (k', t') := by
  unfold inferWith
  cases t.isEditing with
  | true =>
    simp only [Bool.not_true, Bool.false_eq_true, if_false, true_and]
    constructor
    · intro h
      obtain ⟨e, he, h⟩ := bind_eq_ok.1 h
      obtain ⟨p, hp, h⟩ := bind_eq_ok.1 h
      exact ⟨e, p, Outcome.lift_eq_ok.1 he, hp, Outcome.lift_eq_ok.1 h⟩
    · rintro ⟨e, p, he, hp, h⟩
      exact bind_eq_ok.2 ⟨e, Outcome.lift_eq_ok.2 he,
        bind_eq_ok.2 ⟨p, hp, Outcome.lift_eq_ok.2 h⟩⟩
  | false =>
    constructor
    · exact fun h => nomatch h
    · rintro ⟨h, -⟩
      cases h

/-- What is filled in, and the table that comes with it. -/
theorem finishKernel_eq_ok {k k' : Kernel} {p : Progress} {t : Table} :
    finishKernel complete k p = .ok (k', t) ↔
      (k.withTypes p.env.toList).rename p.renames = .ok k' ∧ t = p.table ∧
        (complete = true →
          k'.checkFunctionsResolved p.table = .ok () ∧ k'.checkVariablesTyped = .ok ()) := by
  unfold finishKernel
  constructor
  · intro h
    obtain ⟨typed, htyped, h⟩ := bind_eq_ok.1 h
    cases complete with
    | false =>
      obtain ⟨rfl, rfl⟩ := Prod.mk.inj (Except.ok.inj h)
      exact ⟨htyped, rfl, fun hc => nomatch hc⟩
    | true =>
      obtain ⟨_, hresolved, h⟩ := bind_eq_ok.1 h
      obtain ⟨_, hvariables, h⟩ := bind_eq_ok.1 h
      obtain ⟨rfl, rfl⟩ := Prod.mk.inj (Except.ok.inj h)
      exact ⟨htyped, rfl, fun _ => ⟨hresolved, hvariables⟩⟩
  · rintro ⟨htyped, rfl, hcomplete⟩
    rw [htyped, ok_bind]
    cases complete with
    | false => rfl
    | true =>
      obtain ⟨hresolved, hvariables⟩ := hcomplete rfl
      simp only [if_true, hresolved, hvariables, ok_bind]
      rfl

theorem inferWith_grows (hinfer : GrowsTable infer) :
    GrowsTable (inferWith target infer complete fuel) := by
  intro k t k' t' h
  obtain ⟨hedit, e, p, -, hp, h⟩ := inferWith_eq_ok.1 h
  obtain ⟨-, rfl, -⟩ := finishKernel_eq_ok.1 h
  exact ((steps_of_inferExpanded hp).grows hinfer (.start hedit _)).1

end Inference

open Inference

/-- Inference on a kernel only adds specializations to the table. -/
theorem inferKernel_grows (target : Target) (fuel : Nat) (complete : Bool) :
    GrowsTable (inferKernel target fuel complete) := by
  induction fuel generalizing complete with
  | zero => exact fun _ _ _ _ h => nomatch h
  | succ fuel ih => exact inferWith_grows (ih true)

/-- Inference is inference inside a transaction, which is then pruned if it is the outermost one,
and committed. -/
theorem infer_eq_ok_iff {target : Target} {fuel : Nat} {complete : Bool} {k k' : Kernel}
    {t t' : Table} :
    infer target fuel complete k t = .ok (k', t') ↔
      ∃ u, inferKernel target fuel complete k t.beginEdit.1 = .ok (k', u) ∧
        (if t.beginEdit.2.isOutermost then u.retainReachable k'.calledEntries.toList
          else u).commitEdit t.beginEdit.2 = .ok t' := by
  unfold infer
  dsimp only
  rw [bind_eq_ok]
  constructor
  · rintro ⟨⟨typed, u⟩, hu, h⟩
    obtain ⟨t', ht', h⟩ := bind_eq_ok.1 h
    obtain ⟨rfl, rfl⟩ := Prod.mk.inj (Except.ok.inj h)
    exact ⟨u, hu, Outcome.lift_eq_ok.1 ht'⟩
  · rintro ⟨u, hu, ht'⟩
    exact ⟨_, hu, bind_eq_ok.2 ⟨t', Outcome.lift_eq_ok.2 ht', rfl⟩⟩

section Infer

variable {target : Target} {fuel : Nat} {complete : Bool} {k k' : Kernel} {t u : Table}

/-- A run of inference that comes to an end can be committed. -/
theorem exists_infer_of_inferKernel
    (h : inferKernel target fuel complete k t.beginEdit.1 = .ok (k', u)) :
    ∃ t', infer target fuel complete k t = .ok (k', t') := by
  have hdepth : u.depth = t.depth + 1 := (inferKernel_grows target fuel complete h).depth_eq
  let pruned := if t.beginEdit.2.isOutermost then u.retainReachable k'.calledEntries.toList else u
  have hcloses : pruned.closes t.beginEdit.2 = true := by
    have hpruned : pruned.depth = u.depth := by
      show (if _ then _ else _ : Table).depth = _
      split <;> rfl
    simp [Table.closes, hpruned, hdepth, Table.beginEdit]
  exact ⟨_, infer_eq_ok_iff.2 ⟨u, h, Table.commitEdit_eq_ok.2 ⟨hcloses, rfl⟩⟩⟩

/-- Where the run fails, inference fails in the same way. -/
theorem infer_eq_error_of_inferKernel {e : Halt}
    (h : inferKernel target fuel complete k t.beginEdit.1 = .error e) :
    infer target fuel complete k t = .error e := by
  unfold infer
  dsimp only
  rw [h]
  rfl

/-- Inference that stores only what the typed kernel calls keeps all that it has stored. -/
theorem infer_of_pending_called {u : Table} (ht : t.depth = 0)
    (h : inferKernel target fuel complete k t.beginEdit.1 = .ok (k', u))
    (hcalled : u.pending.all k'.calledEntries.contains = true) :
    infer target fuel complete k t = .ok (k', u.closed) := by
  have hroots : ∀ name ∈ u.pending, name ∈ k'.calledEntries.toList := fun name hname =>
    Std.ExtTreeSet.mem_toList.2 (Std.ExtTreeSet.contains_iff_mem.1 (List.all_eq_true.1 hcalled _ hname))
  have hcommit := Table.commitEdit_retainReachable ht (inferKernel_grows target fuel complete h)
    k'.calledEntries.toList
  refine infer_eq_ok_iff.2 ⟨u, h, ?_⟩
  rw [if_pos (Table.isOutermost_beginEdit ht), hcommit, Table.retainReachable_eq_self hroots]

end Infer

end KernelTyping
