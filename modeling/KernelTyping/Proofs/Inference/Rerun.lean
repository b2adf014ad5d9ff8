import KernelTyping.Proofs.Inference.Steps

/-!
# KernelTyping.Proofs.Inference.Rerun — inference from another table

Inference on a kernel sees the table only through the entries that can be reached from the kernel.
From two tables that agree on these it finds the same types (`inferKernel_sameTypes`), and from a
table that has grown out of its own result it finds the same kernel and adds nothing
(`inferKernel_reruns`).  Attempts that are dropped are why the second needs the first.
-/

namespace KernelTyping

open Evaluation

namespace Inference

variable {R : String → Prop} {ctx : Context}

/-! ### Attempts -/

section Attempts

variable {α : Type} {x y : Eval (Option α)} {t u v : Table}

theorem alike_start (hagree : Table.Agree R t u) (ht : t.isEditing = true)
    (hu : u.isEditing = true) : (State.start t).Alike R (.start u) :=
  ⟨hagree, rfl, fun _ => rfl, .start ht, .start hu⟩

theorem attempt_matches (h : SameResults R _ x y) (hagree : Table.Agree R t u)
    (ht : t.isEditing = true) (hu : u.isEditing = true) :
    Matches (fun a b => a.1 = b.1 ∧ a.2.unknown = b.2.unknown ∧
        (a.1 ≠ none → a.2.Alike R b.2)) (attempt x t) (attempt y u) := by
  have hstart := h _ _ (alike_start hagree ht hu)
  rw [attempt_eq, attempt_eq]
  generalize exec x (.start t) = a at hstart ⊢
  generalize exec y (.start u) = b at hstart ⊢
  cases hstart with
  | ok hstate => exact .ok ⟨rfl, hstate.unknown, fun _ => hstate⟩
  | @error e _ _ hunknown =>
    cases e with
    | exhausted => exact .error _
    | fault f =>
      dsimp only
      split
      · exact .ok ⟨rfl, hunknown, fun hfound => absurd rfl hfound⟩
      · exact .error _

/-- An attempt that found something finds the same from a table that has grown since. -/
theorem attempt_rerun (h : Repeats R x) (ht : t.isEditing = true) (hlinked : Table.Linked R t)
    {a : α} {s : State} (hattempt : attempt x t = .ok (some a, s)) (hv : s.table.Grows v) :
    attempt x v = .ok (some a, { s with table := v }) := by
  rw [attempt_eq_some] at hattempt ⊢
  exact h.rerun (.start ht) hlinked hattempt hv

/-- Where an attempt finds nothing, it finds nothing from a table that has grown either. -/
theorem exists_attempt_none (hx : SameResults R _ x x) (ht : t.isEditing = true)
    (hlinked : Table.Linked R t) {s : State} (h : attempt x t = .ok (none, s)) (hv : t.Grows v) :
    ∃ s', attempt x v = .ok (none, s') := by
  have hmatches := attempt_matches hx (hlinked.agree hv) ht (hv.isEditing_eq.trans ht)
  rw [h] at hmatches
  obtain ⟨⟨_, s'⟩, hagain, rfl, -, -⟩ := hmatches.exists_of_ok
  exact ⟨s', hagain⟩

end Attempts

/-! ### Progress that is alike -/

/-- At the names in `S` the progresses differ only in the names of specializations, and the second
one has recorded the calls in `extra` besides those of the first. -/
structure Progress.AlikeOn (R S : String → Prop) (extra : Expr → Bool) (p q : Progress) :
    Prop where
  agree : Table.Agree R p.table q.table
  env {name : String} : S name → p.env[name]? = q.env[name]?
  keys (call : Expr) : q.renames.contains call = (extra call || p.renames.contains call)
  left : p.Sound
  right : q.Sound

/-- The progresses differ only in the names of specializations. -/
abbrev Progress.Alike (R : String → Prop) : Progress → Progress → Prop :=
  AlikeOn R (fun _ => True) fun _ => false

namespace Progress

theorem contains_record {p : Progress} {s : State} (hs : s.Sound) (call : Expr) :
    (p.record s).renames.contains call = (s.renames.contains call || p.renames.contains call) := by
  show (p.renames.merge s.renames).contains call = _
  rw [Renames.contains, Renames.get?_merge hs.proper call, Option.isSome_or]
  rfl

namespace AlikeOn

variable {S : String → Prop} {extra : Expr → Bool} {p q : Progress}

theorem record {s s' : State} (h : p.AlikeOn R S extra q) (hs : s.Alike R s')
    (hp : p.table.Grows s.table) (hq : q.table.Grows s'.table) :
    (p.record s).AlikeOn R S extra (q.record s') where
  agree := hs.agree
  env := h.env
  keys call := by
    rw [contains_record hs.left, contains_record hs.right, h.keys, hs.keys, Bool.or_left_comm]
  left := h.left.record hs.left hp
  right := h.right.record hs.right hq

theorem insert (h : p.AlikeOn R S extra q) (name : String) (type : ElementType) :
    ({ p with env := p.env.insert name type } : Progress).AlikeOn R S extra
      { q with env := q.env.insert name type } where
  agree := h.agree
  env {other} hother := by
    show (p.env.insert name type)[other]? = (q.env.insert name type)[other]?
    rw [Std.ExtTreeMap.getElem?_insert, Std.ExtTreeMap.getElem?_insert, h.env hother]
  keys := h.keys
  left := h.left.withEnv _
  right := h.right.withEnv _

end AlikeOn

namespace Alike

variable {p q : Progress}

theorem start {t u : Table} (hagree : Table.Agree R t u) (ht : t.isEditing = true)
    (hu : u.isEditing = true) (env : Env) : Progress.Alike R ⟨env, t, .empty⟩ ⟨env, u, .empty⟩ where
  agree := hagree
  env _ := rfl
  keys _ := rfl
  left := .start ht _
  right := .start hu _

theorem env_eq (h : p.Alike R q) : p.env = q.env :=
  Std.ExtTreeMap.ext_getElem? fun _ => h.env trivial

theorem contains_eq (h : p.Alike R q) (call : Expr) :
    p.renames.contains call = q.renames.contains call := (h.keys call).symm

end Alike

end Progress

/-! ### From tables that agree -/

/-- The instructions of the kernel call entries of these names only. -/
def InstructionsOnly (R : String → Prop) (k : Kernel) : Prop :=
  ∀ i ∈ k.instructions, ∀ value, i.value? = some value → CallsOnly R value

/-- The writers of a member are instructions of the kernel. -/
def WritersIn (k : Kernel) (members : List Member) : Prop :=
  ∀ m ∈ members, ∀ i ∈ m.writers, i ∈ k.instructions

theorem writersIn_ofName (k : Kernel) (names : List String) :
    WritersIn k (names.map (.ofName k)) := by
  refine List.forall_mem_map.2 fun name _ i hi => ?_
  obtain ⟨id, -, hid⟩ := List.mem_filterMap.1 hi
  exact List.mem_of_find?_eq_some hid

/-- What an attempt at a member or an instruction finds in progresses that are alike. -/
theorem attempt_alikeOn {S : String → Prop} {extra : Expr → Bool} {α : Type} {x : Eval (Option α)}
    {p q : Progress} (h : p.AlikeOn R S extra q) (hsame : SameResults R _ x x)
    (hx : Evolves (fun s s' => s.Sound → s.table.Grows s'.table ∧ s'.Sound) x) :
    Matches (fun a b => a.1 = b.1 ∧ a.2.unknown = b.2.unknown ∧
        (a.1 ≠ none → (p.record a.2).AlikeOn R S extra (q.record b.2)))
      (attempt x p.table) (attempt x q.table) := by
  refine (attempt_matches hsame h.agree h.left.editing h.right.editing).imp ?_
  rintro ⟨a, s⟩ ⟨b, s'⟩ ha hb ⟨rfl, hunknown, hs⟩
  refine ⟨rfl, hunknown, fun hfound => ?_⟩
  obtain ⟨found, rfl⟩ := Option.ne_none_iff_exists'.1 hfound
  exact h.record (hs hfound) (h.left.attempt hx ha).1 (h.right.attempt hx hb).1

theorem matches_foldlM {α : Type} {f g : Progress → α → Outcome Progress} {xs : List α}
    (hfg : ∀ x ∈ xs, ∀ p q, p.Alike R q → Matches (Progress.Alike R) (f p x) (g q x))
    {p q : Progress} (h : p.Alike R q) :
    Matches (Progress.Alike R) (xs.foldlM f p) (xs.foldlM g q) := by
  induction xs generalizing p q with
  | nil => exact .ok h
  | cons x xs ih =>
    rw [List.foldlM_cons, List.foldlM_cons]
    exact (hfg x (by simp) p q h).bind fun p q h => ih (fun y hy => hfg y (by simp [hy])) h

section SameTypes

variable (hgrows : GrowsTable ctx.infer) (hinfer : SameTypes R ctx.infer)
  (honly : InstructionsOnly R ctx.kernel) {members : List Member} {onePass complete : Bool}

include hgrows hinfer honly

theorem sameResults_writtenType {m : Member} (hm : ∀ i ∈ m.writers, i ∈ ctx.kernel.instructions)
    (env : Env) :
    SameResults R _ (writtenType { ctx with env } m) (writtenType { ctx with env } m) :=
  compatible_sameResults.writtenType fun i hi =>
    relatedAt_sameResults { ctx with env } hgrows (honly i (hm i hi)) hinfer

theorem sameResults_visit {i : Instruction} (hi : i ∈ ctx.kernel.instructions) (env : Env) :
    SameResults R _ (visit { ctx with env } i) (visit { ctx with env } i) :=
  compatible_sameResults.visit (relatedAt_sameResults { ctx with env } hgrows
    (honly i hi) hinfer)

/-- The loop of a component, from progresses that are alike at its members and at what their
writers read. -/
theorem settle_alikeOn {S : String → Prop} {extra : Expr → Bool}
    (hmembers : WritersIn ctx.kernel members) (hnames : ∀ m ∈ members, S m.name)
    (hreads : ∀ m ∈ members, ∀ i ∈ m.writers, ∀ read ∈ i.readNames, S read) {fuel : Nat}
    {queue : List Member} {failed : NameSet} {changed : Bool} {p q : Progress}
    (hqueue : queue ⊆ members) (h : p.AlikeOn R S extra q) :
    Matches (Progress.AlikeOn R S extra)
      (settle ctx members onePass complete fuel queue failed changed p)
      (settle ctx members onePass complete fuel queue failed changed q) := by
  induction fuel generalizing queue failed changed p q with
  | zero => exact .error _
  | succ fuel ih =>
    cases queue with
    | nil =>
      rw [settle, settle]
      split
      · exact ih (List.Subset.refl members) h
      · exact .ok h
    | cons m queue =>
      obtain ⟨hm, hqueue⟩ := List.cons_subset.1 hqueue
      have hwritten : writtenType { ctx with env := q.env } m =
          writtenType { ctx with env := p.env } m :=
        writtenType_congr_env fun i hi read hread => (h.env (hreads m hm i hi read hread)).symm
      rw [settle, settle, hwritten]
      refine (attempt_alikeOn h (sameResults_writtenType hgrows hinfer honly (hmembers m hm) p.env)
        (evolution_writtenType { ctx with env := p.env } (evolution_grows hgrows) m)).bind ?_
      rintro ⟨a, s⟩ ⟨b, s'⟩ ⟨rfl, hunknown, hrecord⟩
      cases a with
      | some type =>
        replace hrecord := hrecord (Option.some_ne_none type)
        dsimp only
        rw [hrecord.env (hnames m hm)]
        split
        · exact ih hqueue hrecord
        · exact ih hqueue (hrecord.insert m.name type)
      | none =>
        dsimp only
        split
        · rw [show s.unknown = s'.unknown from hunknown]
          split
          · exact .error _
          · exact .ok h
        · exact ih (List.append_subset.2 ⟨hqueue, by simpa using hm⟩) h

theorem settleComponent_alikeOn {S : String → Prop} {extra : Expr → Bool} (d : Dependencies)
    {names : List String} (hnames : ∀ x ∈ names, S x)
    (hreads : ∀ x ∈ names, ∀ i ∈ ctx.kernel.writers x, ∀ read ∈ i.readNames, S read) {fuel : Nat}
    {p q : Progress} (h : p.AlikeOn R S extra q) :
    Matches (Progress.AlikeOn R S extra) (settleComponent ctx d complete fuel p names)
      (settleComponent ctx d complete fuel q names) :=
  settle_alikeOn hgrows hinfer honly (writersIn_ofName _ names) (List.forall_mem_map.2 hnames)
    (List.forall_mem_map.2 hreads) (List.Subset.refl _) h

theorem resolveCalls_matches {i : Instruction} (hi : i ∈ ctx.kernel.instructions)
    {p q : Progress} (h : p.Alike R q) :
    Matches (Progress.Alike R) (resolveCalls ctx p i) (resolveCalls ctx q i) := by
  unfold resolveCalls
  rw [← h.env_eq]
  refine (attempt_alikeOn h (sameResults_visit hgrows hinfer honly hi p.env)
    (evolution_visit { ctx with env := p.env } (evolution_grows hgrows) i)).bind ?_
  rintro ⟨a, s⟩ ⟨b, s'⟩ ⟨rfl, -, hrecord⟩
  cases a with
  | some _ => exact .ok (hrecord (Option.some_ne_none _))
  | none => exact .ok h

variable (ctx) in
theorem inferExpanded_matches {fuel : Nat} {t u : Table} (ht : t.isEditing = true)
    (hu : u.isEditing = true) (hagree : Table.Agree R t u) :
    Matches (Progress.Alike R) (inferExpanded ctx complete fuel t)
      (inferExpanded ctx complete fuel u) := by
  have hstart := Progress.Alike.start hagree ht hu (startEnv ctx.kernel)
  refine (matches_foldlM (fun names _ p q h => ?_) hstart).bind fun p q h => ?_
  · exact settleComponent_alikeOn hgrows hinfer honly _ (fun _ _ => trivial)
      (fun _ _ _ _ _ _ => trivial) h
  · exact matches_foldlM (fun i hi p q h =>
      resolveCalls_matches hgrows hinfer honly (List.mem_filter.1 hi).1 h) h

end SameTypes

/-! ### What is filled in -/

variable (ctx) in
/-- The recorded calls of a run are calls in expanded form. -/
theorem normal_of_inferExpanded (hgrows : GrowsTable ctx.infer) {k : Kernel}
    (he : k.expand = .ok ctx.kernel) {complete : Bool} {fuel : Nat} {t : Table} {p : Progress}
    (ht : t.isEditing = true) (hp : inferExpanded ctx complete fuel t = .ok p) :
    p.renames.Normal k.rules := by
  refine (steps_of_inferExpanded hp).recordsOnly hgrows (writersIn_ofName _ _) ?_ (.start ht _)
    fun _ h => nomatch h
  intro i hi value tuple callee args keywords hvalue hvisits
  have hvalue : value ∈ i.expressions := by simp [Instruction.expressions, hvalue]
  exact ⟨rfl, hvisits.expanded (Kernel.expanded_of_expand he hi hvalue)⟩

/-- Two tables that agree on the entries that a kernel calls leave the same calls open. -/
theorem openFault?_eq {e : Kernel} {m m' : Renames} {t u : Table}
    (honly : ∀ i ∈ e.instructions, ∀ x ∈ i.expressions, CallsOnly R x)
    (hkeys : ∀ call, m.contains call = m'.contains call) (hagree : Table.Agree R t u) :
    e.openFault? m t = e.openFault? m' u := by
  refine findSome?_congr fun i hi => findSome?_congr fun call hcall => ?_
  obtain ⟨x, hx, hcall⟩ := List.mem_flatMap.1 hcall
  unfold Table.openFault?
  rw [hkeys]
  split
  · rfl
  · cases call with
    | call callee args keywords =>
      cases callee with
      | bare name => rfl
      | entry name =>
        obtain ⟨c, ht, hu, -⟩ :=
          hagree name (honly i hi x hx name ⟨_, (Expr.mem_calls.1 hcall).1, rfl⟩)
        simp [Table.callFault?, Table.contains_eq_isSome, ht, hu]
    | _ => rfl

theorem finishKernel_matches {k e : Kernel} (he : k.expand = .ok e)
    (honly : ∀ i ∈ e.instructions, ∀ x ∈ i.expressions, CallsOnly R x) {p q : Progress}
    (hnormal : p.renames.Normal k.rules) (h : p.Alike R q) (complete : Bool) :
    Matches (fun a b => a.1.name = b.1.name ∧ a.1.args = b.1.args) (finishKernel complete k p)
      (finishKernel complete k q) := by
  have hnormal' : q.renames.Normal k.rules := fun call hcall =>
    hnormal call ((h.contains_eq call).trans hcall)
  obtain ⟨a, ha, hsame, -⟩ := Kernel.rename_withTypes_spec hnormal he p.env.toList
  obtain ⟨b, hb, hsame', -⟩ := Kernel.rename_withTypes_spec hnormal' he p.env.toList
  have hp := Kernel.checkFunctionsResolved_rename_withTypes hnormal he
    (fun _ _ => h.left.entry) ha
  have hq := Kernel.checkFunctionsResolved_rename_withTypes hnormal' he
    (fun _ _ => h.right.entry) hb
  have hvariables : a.checkVariablesTyped = b.checkVariablesTyped := by
    rw [hsame, hsame']
    rfl
  have hresult : a.name = b.name ∧ a.args = b.args := by
    rw [hsame, hsame']
    exact ⟨rfl, rfl⟩
  unfold finishKernel
  rw [← h.env_eq, ha, hb, ok_bind, ok_bind]
  cases complete with
  | false => exact .ok hresult
  | true =>
    simp only [if_true, hp, hq, openFault?_eq honly h.contains_eq h.agree, hvariables]
    exact .bind_same fun _ _ => .bind_same fun _ _ => .ok hresult

/-! ### Inference on a kernel -/

variable {target : Target} {infer : Inference}

theorem callsOnly_of_expand {k e : Kernel} (hk : k.CallsOnly R) (he : k.expand = .ok e) :
    ∀ i ∈ e.instructions, ∀ x ∈ i.expressions, CallsOnly R x :=
  fun _ hi _ hx name hname => hk name (Kernel.entries_of_expand he hi hx hname)

theorem instructionsOnly_of_expand {k e : Kernel} (hk : k.CallsOnly R) (he : k.expand = .ok e) :
    InstructionsOnly R e := fun i hi value hvalue =>
  callsOnly_of_expand hk he i hi value (by simp [Instruction.expressions, hvalue])

theorem inferWith_sameTypes (hgrows : GrowsTable infer) (hinfer : SameTypes R infer)
    (complete : Bool) (fuel : Nat) : SameTypes R (inferWith target infer complete fuel) := by
  intro k t u hk ht hu hagree
  unfold inferWith
  rw [ht, hu]
  refine .bind_same fun e he => ?_
  have he : k.expand = .ok e := Outcome.lift_eq_ok.1 he
  have honly := callsOnly_of_expand hk he
  refine Matches.bind ((inferExpanded_matches ⟨target, e, startEnv e, infer⟩ hgrows hinfer
    (instructionsOnly_of_expand hk he) ht hu hagree).imp
      fun p q hp _ h => (⟨hp, h⟩ : _ ∧ p.Alike R q)) fun p q ⟨hp, h⟩ => ?_
  have hnormal := normal_of_inferExpanded ⟨target, e, startEnv e, infer⟩ hgrows he ht hp
  exact (finishKernel_matches he honly hnormal h complete).lift

/-! ### From a table that has grown -/

section Reruns

variable (hgrows : GrowsTable ctx.infer) (hsame : SameTypes R ctx.infer)
  (hinfer : Reruns R ctx.infer) (honly : InstructionsOnly R ctx.kernel) {members : List Member}
  {onePass complete : Bool}

/-- The progress with a table that has grown. -/
def Progress.withTable (p : Progress) (v : Table) : Progress := { p with table := v }

include hgrows hinfer honly

variable (ctx) in
theorem repeats_writtenType {m : Member} (hm : ∀ i ∈ m.writers, i ∈ ctx.kernel.instructions)
    (env : Env) : Repeats R (writtenType { ctx with env } m) :=
  (compatible_repeats.writtenType fun i hi =>
    relatedAt_repeats { ctx with env } hgrows (honly i (hm i hi)) hinfer).2

theorem repeats_visit {i : Instruction} (hi : i ∈ ctx.kernel.instructions) (env : Env) :
    Repeats R (visit { ctx with env } i) :=
  (compatible_repeats.visit (relatedAt_repeats { ctx with env } hgrows (honly i hi)
    hinfer)).2

include hsame

theorem settling_rerun (hmembers : WritersIn ctx.kernel members) {fuel : Nat}
    {queue : List Member} {failed : NameSet} {changed : Bool} {p q : Progress} {v : Table}
    (h : Settling ctx members onePass complete q fuel queue failed changed p)
    (hqueue : queue ⊆ members) (hp : p.Sound) (hlinked : Table.Linked R p.table)
    (hv : q.table.Grows v) :
    Settling ctx members onePass complete (q.withTable v) fuel queue failed changed
      (p.withTable v) := by
  -- a visit that finds nothing finds nothing again
  have hnone {p : Progress} {m : Member} {s : State} (hm : m ∈ members) (hp : p.Sound)
      (hlinked : Table.Linked R p.table) (hpv : p.table.Grows v)
      (hattempt : attempt (writtenType { ctx with env := p.env } m) p.table = .ok (none, s)) :=
    exists_attempt_none (sameResults_writtenType hgrows hsame honly (hmembers m hm) p.env)
      hp.editing hlinked hattempt hpv
  induction h with
  | again honePass _ ih => exact .again honePass (ih (List.Subset.refl members) hp hlinked)
  | done hchanged => exact .done hchanged
  | @confirm _ m _ _ _ p _ s hattempt henv h ih =>
    obtain ⟨hm, hqueue⟩ := List.cons_subset.1 hqueue
    obtain ⟨hps, hsound⟩ := ((Steps.refl p).assign hm hattempt).grows hgrows hp
    have hsound : (p.record s).Sound := hsound.withEnv p.env
    have hsv := ((h.steps hqueue).grows hgrows hsound).1.trans hv
    have hagain := attempt_rerun (repeats_writtenType ctx hgrows hinfer honly (hmembers m hm) p.env)
      hp.editing hlinked hattempt hsv
    exact .confirm hagain henv (ih hqueue hsound (hlinked.grows hps))
  | @assign _ m _ _ _ p _ s hattempt henv h ih =>
    obtain ⟨hm, hqueue⟩ := List.cons_subset.1 hqueue
    obtain ⟨hps, hsound⟩ := ((Steps.refl p).assign hm hattempt).grows hgrows hp
    have hsv := ((h.steps hqueue).grows hgrows hsound).1.trans hv
    have hagain := attempt_rerun (repeats_writtenType ctx hgrows hinfer honly (hmembers m hm) p.env)
      hp.editing hlinked hattempt hsv
    exact .assign hagain henv (ih hqueue hsound (hlinked.grows hps))
  | @defer _ m _ _ _ p _ hattempt hfailed h ih =>
    obtain ⟨hm, hqueue⟩ := List.cons_subset.1 hqueue
    replace hqueue := List.append_subset.2 ⟨hqueue, show [m] ⊆ members by simpa using hm⟩
    have hpv := ((h.steps hqueue).grows hgrows hp).1.trans hv
    obtain ⟨_, hagain⟩ := hnone hm hp hlinked hpv hattempt
    exact .defer hagain hfailed (ih hqueue hp hlinked)
  | @giveUp _ m _ _ _ _ hattempt hfailed hcomplete =>
    obtain ⟨_, hagain⟩ := hnone (hqueue (List.mem_cons_self ..)) hp hlinked hv hattempt
    exact .giveUp hagain hfailed hcomplete

theorem resolveCalls_rerun {i : Instruction} (hi : i ∈ ctx.kernel.instructions) {p q : Progress}
    {v : Table} (hp : p.Sound) (hlinked : Table.Linked R p.table)
    (h : resolveCalls ctx p i = .ok q) (hv : q.table.Grows v) :
    resolveCalls ctx (p.withTable v) i = .ok (q.withTable v) := by
  have hsteps : Steps ctx [] p q := steps_of_resolveCalls hi h
  have hpv := (hsteps.grows hgrows hp).1.trans hv
  obtain ⟨⟨found, s⟩, hattempt, h⟩ := bind_eq_ok.1 h
  cases found with
  | some _ =>
    obtain rfl := Except.ok.inj h
    exact bind_eq_ok.2 ⟨_, attempt_rerun (repeats_visit hgrows hinfer honly hi p.env) hp.editing
      hlinked hattempt hv, rfl⟩
  | none =>
    obtain rfl := Except.ok.inj h
    obtain ⟨s', hagain⟩ := exists_attempt_none (sameResults_visit hgrows hsame honly hi p.env)
      hp.editing hlinked hattempt hpv
    exact bind_eq_ok.2 ⟨_, hagain, rfl⟩

omit hsame hinfer honly in
/-- A loop whose rounds can be run again from a table that has grown can be run again. -/
theorem foldlM_rerun {α : Type} {f : Progress → α → Outcome Progress} {xs : List α}
    (hsteps : ∀ x ∈ xs, ∀ p q, f p x = .ok q → Steps ctx members p q)
    (hf : ∀ x ∈ xs, ∀ p q v, p.Sound → Table.Linked R p.table → f p x = .ok q →
      q.table.Grows v → f (p.withTable v) x = .ok (q.withTable v)) {p q : Progress} {v : Table}
    (hp : p.Sound) (hlinked : Table.Linked R p.table) (h : xs.foldlM f p = .ok q)
    (hv : q.table.Grows v) : xs.foldlM f (p.withTable v) = .ok (q.withTable v) := by
  induction xs generalizing p with
  | nil =>
    obtain rfl := Except.ok.inj h
    rfl
  | cons x xs ih =>
    rw [List.foldlM_cons] at h ⊢
    obtain ⟨r, hr, h⟩ := bind_eq_ok.1 h
    have hsteps' := fun y hy => hsteps y (List.mem_cons_of_mem x hy)
    obtain ⟨hpr, hrsound⟩ := (hsteps x (by simp) p r hr).grows hgrows hp
    have hrv := ((steps_of_foldlM hsteps' h).grows hgrows hrsound).1.trans hv
    exact bind_eq_ok.2 ⟨_, hf x (by simp) p r v hp hlinked hr hrv,
      ih hsteps' (fun y hy => hf y (by simp [hy])) hrsound (hlinked.grows hpr) h⟩

variable (ctx) in
theorem inferExpanded_rerun {fuel : Nat} {t v : Table} {q : Progress} (ht : t.isEditing = true)
    (hlinked : Table.Linked R t) (h : inferExpanded ctx complete fuel t = .ok q)
    (hv : q.table.Grows v) : inferExpanded ctx complete fuel v = .ok (q.withTable v) := by
  obtain ⟨p, hp, hq⟩ := inferExpanded_eq_ok.1 h
  have hstart : Progress.Sound ⟨startEnv ctx.kernel, t, .empty⟩ := .start ht _
  have hresolve : ∀ i ∈ ctx.kernel.instructions.filter (!·.isDataOblivious), ∀ p q,
      resolveCalls ctx p i = .ok q → Steps ctx [] p q :=
    fun i hi _ _ h => steps_of_resolveCalls (List.mem_filter.1 hi).1 h
  obtain ⟨htp, hsound⟩ := (steps_of_components hp).grows hgrows hstart
  have hpv := ((steps_of_foldlM hresolve hq).grows hgrows hsound).1.trans hv
  refine inferExpanded_eq_ok.2 ⟨p.withTable v, ?_, ?_⟩
  · refine foldlM_rerun hgrows (fun _ hnames _ _ h => steps_of_component hnames h)
      (fun names _ p q v hp hlinked h hv => ?_) hstart hlinked hp hpv
    exact settle_eq_ok.2 (settling_rerun hgrows hsame hinfer honly (writersIn_ofName _ names)
      (settle_eq_ok.1 h) (List.Subset.refl _) hp hlinked hv)
  · exact foldlM_rerun hgrows hresolve (fun i hi p q v hp hlinked h hv =>
      resolveCalls_rerun hgrows hsame hinfer honly (List.mem_filter.1 hi).1 hp hlinked h hv)
      hsound (hlinked.grows htp) hq hv

end Reruns

theorem finishKernel_rerun {k k' : Kernel} {p : Progress} {t v : Table} {complete : Bool}
    (h : finishKernel complete k p = .ok (k', t)) (hv : t.Grows v) :
    finishKernel complete k (p.withTable v) = .ok (k', v) := by
  obtain ⟨hrename, rfl, hcomplete⟩ := finishKernel_eq_ok.1 h
  refine finishKernel_eq_ok.2 ⟨hrename, rfl, fun hc => ?_⟩
  obtain ⟨hresolved, hvariables⟩ := hcomplete hc
  exact ⟨Kernel.checkFunctionsResolved_grows hresolved hv, hvariables⟩

theorem inferWith_reruns (hgrows : GrowsTable infer) (hsame : SameTypes R infer)
    (hinfer : Reruns R infer) (complete : Bool) (fuel : Nat) :
    Reruns R (inferWith target infer complete fuel) := by
  intro k t k' u v hk hlinked h hv
  obtain ⟨ht, e, p, he, hp, h⟩ := inferWith_eq_ok.1 h
  have hsteps : Steps ⟨target, e, startEnv e, infer⟩ (openMembers e) _ p :=
    steps_of_inferExpanded hp
  have hgrowth := hsteps.grows hgrows (.start ht _)
  obtain ⟨-, rfl, -⟩ := finishKernel_eq_ok.1 h
  refine inferWith_eq_ok.2 ⟨?_, e, p.withTable v, he, ?_, finishKernel_rerun h hv⟩
  · exact (hv.isEditing_eq.trans hgrowth.1.isEditing_eq).trans ht
  · exact inferExpanded_rerun ⟨target, e, startEnv e, infer⟩ hgrows hsame hinfer
      (instructionsOnly_of_expand hk he) ht hlinked hp hv

end Inference

open Inference

variable {R : String → Prop}

/-- From two tables that agree on what a kernel calls, inference finds the same types. -/
theorem inferKernel_sameTypes (target : Target) (fuel : Nat) (complete : Bool) :
    SameTypes R (inferKernel target fuel complete) := by
  induction fuel generalizing complete with
  | zero => exact fun _ _ _ _ _ _ _ => .error _
  | succ fuel ih => exact inferWith_sameTypes (inferKernel_grows target fuel true) (ih true) _ _

/-- From a table that has grown out of its result, inference finds the same and adds nothing. -/
theorem inferKernel_reruns (target : Target) (fuel : Nat) (complete : Bool) :
    Reruns R (inferKernel target fuel complete) := by
  induction fuel generalizing complete with
  | zero => exact fun _ _ _ _ _ _ _ h => nomatch h
  | succ fuel ih =>
    exact inferWith_reruns (inferKernel_grows target fuel true)
      (inferKernel_sameTypes target fuel true) (ih true) _ _

end KernelTyping
