import KernelTyping.Proofs.Inference.Loop
import KernelTyping.Proofs.Inference.Soundness

/-!
# KernelTyping.Proofs.Inference.GivingUp — where the loop of a component is given up

A loop is given up at a member that says nothing for the second time since a type last changed.  The
members visited since that change are stuck there: they say nothing or what they are
(`Trail.said`).  These are all members if no type has changed in the current pass
(`Orderly.mem_recent`), so that a loop is given up too early only for members that were last visited
before the change (`stuck_of_settleComponent_error`).
-/

namespace KernelTyping

open Evaluation

namespace Inference

variable {ctx : Context} {members : List Member} {onePass complete : Bool}

/-! ### The turns of a loop -/

/-- A visit of the writers of a member, under the types found so far. -/
abbrev Progress.evaluate (ctx : Context) (p : Progress) (m : Member) :
    Outcome (Option ElementType × State) :=
  attempt (writtenType { ctx with env := p.env } m) p.table

/-- The next member says nothing, and it said nothing before with no change since. -/
def Loop.GivesUp (ctx : Context) (l : Loop) (m : Member) (s : State) : Prop :=
  l.queue.head? = some m ∧ l.failed.contains m.name = true ∧
    l.progress.evaluate ctx m = .ok (none, s)

/-- A loop on its way, with the members visited since a type last changed, the last one first. -/
inductive Trail (ctx : Context) (members : List Member) (onePass : Bool) (p : Progress) :
    Loop → List Member → Prop where
  | start : Trail ctx members onePass p (.start members p) []
  | again {l : Loop} {recent : List Member} (h : Trail ctx members onePass p l recent)
    (hqueue : l.queue = []) (hchanged : l.changed = true) (honePass : onePass = false) :
    Trail ctx members onePass p { l with queue := members, changed := false } recent
  | confirm {l : Loop} {recent queue : List Member} {m : Member} {type : ElementType} {s : State}
    (h : Trail ctx members onePass p l recent) (hqueue : l.queue = m :: queue)
    (hvisit : l.progress.evaluate ctx m = .ok (some type, s))
    (henv : l.progress.env[m.name]? = some type) :
    Trail ctx members onePass p { l with queue, progress := l.progress.record s } (m :: recent)
  | assign {l : Loop} {recent queue : List Member} {m : Member} {type : ElementType} {s : State}
    (h : Trail ctx members onePass p l recent) (hqueue : l.queue = m :: queue)
    (hvisit : l.progress.evaluate ctx m = .ok (some type, s))
    (henv : l.progress.env[m.name]? ≠ some type) :
    Trail ctx members onePass p ⟨queue, ∅, true, l.progress.assign m.name type s⟩ []
  | defer {l : Loop} {recent queue : List Member} {m : Member} {s : State}
    (h : Trail ctx members onePass p l recent) (hqueue : l.queue = m :: queue)
    (hvisit : l.progress.evaluate ctx m = .ok (none, s))
    (hfailed : l.failed.contains m.name = false) :
    Trail ctx members onePass p
      { l with queue := queue ++ [m], failed := l.failed.insert m.name } (m :: recent)

/-- A turn after which the loop goes on. -/
theorem Trail.turn {p : Progress} {l next : Loop} {recent : List Member}
    (h : Trail ctx members onePass p l recent)
    (hturn : l.turn ctx members onePass complete = .ok (.inl next)) :
    ∃ recent', Trail ctx members onePass p next recent' := by
  obtain ⟨queue, failed, changed, q⟩ := l
  cases queue with
  | nil =>
    by_cases hrefill : (changed && !onePass) = true
    · have hnext : next = ⟨members, failed, false, q⟩ := by
        simpa [Loop.turn, hrefill, eq_comm] using hturn
      obtain ⟨hchanged, honePass⟩ : changed = true ∧ onePass = false := by simpa using hrefill
      exact ⟨_, hnext ▸ h.again rfl hchanged honePass⟩
    · simp [Loop.turn, hrefill] at hturn
  | cons m queue =>
    rw [Loop.turn] at hturn
    obtain ⟨⟨found, s⟩, hvisit, hturn⟩ := bind_eq_ok.1 hturn
    cases found with
    | some type =>
      dsimp only at hturn
      split at hturn
      case isTrue henv =>
        obtain rfl := Sum.inl.inj (Except.ok.inj hturn)
        exact ⟨_, h.confirm rfl hvisit henv⟩
      case isFalse henv =>
        obtain rfl := Sum.inl.inj (Except.ok.inj hturn)
        exact ⟨_, h.assign rfl hvisit henv⟩
    | none =>
      dsimp only at hturn
      split at hturn
      case isTrue hfailed => split at hturn <;> cases hturn
      case isFalse hfailed =>
        obtain rfl := Sum.inl.inj (Except.ok.inj hturn)
        exact ⟨_, h.defer rfl hvisit (by rwa [Bool.not_eq_true] at hfailed)⟩

theorem Trail.of_after {p : Progress} {n : Nat} {l last : Loop} {recent : List Member}
    (h : Trail ctx members onePass p l recent)
    (hlast : l.after ctx members onePass complete n = some last) :
    ∃ recent', Trail ctx members onePass p last recent' := by
  induction n generalizing l recent with
  | zero =>
    obtain rfl := Option.some.inj hlast
    exact ⟨recent, h⟩
  | succ n ih =>
    rw [Loop.after] at hlast
    split at hlast
    case h_1 next hturn =>
      obtain ⟨recent', hnext⟩ := h.turn hturn
      exact ih hnext hlast
    all_goals cases hlast

/-- A turn at which the loop ends with a fault: that of a visit, or that of giving up. -/
theorem Loop.turn_eq_fault {l : Loop} {f : Fault}
    (h : l.turn ctx members onePass complete = .error (.fault f)) :
    ∃ m queue, l.queue = m :: queue ∧ (l.progress.evaluate ctx m = .error (.fault f) ∨
      ∃ s, l.GivesUp ctx m s ∧ f = .undetermined m.name s.unknown.toList ctx.kernel.name) := by
  obtain ⟨queue, failed, changed, q⟩ := l
  cases queue with
  | nil =>
    rw [turn] at h
    dsimp only at h
    split at h <;> cases h
  | cons m queue =>
    refine ⟨m, queue, rfl, ?_⟩
    rw [turn] at h
    rcases bind_eq_error.1 h with hvisit | ⟨⟨found, s⟩, hvisit, h⟩
    · exact .inl hvisit
    cases found with
    | some type =>
      dsimp only at h
      split at h <;> cases h
    | none =>
      dsimp only at h
      split at h
      case isTrue hfailed =>
        split at h
        · have hf := Halt.fault.inj (Except.error.inj h)
          exact .inr ⟨s, ⟨rfl, hfailed, hvisit⟩, hf.symm⟩
        · cases h
      case isFalse => cases h

/-- A turn at which the loop ends with a progress: that of a loop which is through, or of one which
is given up. -/
theorem Loop.turn_eq_done {l : Loop} {q : Progress}
    (h : l.turn ctx members onePass complete = .ok (.inr q)) :
    l.progress = q ∧ (l.turn ctx members onePass true = .ok (.inr q) ∨
      complete = false ∧ ∃ m s, l.GivesUp ctx m s) := by
  obtain ⟨queue, failed, changed, p⟩ := l
  cases queue with
  | nil =>
    have hsame := h
    rw [turn] at h
    dsimp only at h
    split at h
    · cases h
    · exact ⟨Sum.inr.inj (Except.ok.inj h), .inl hsame⟩
  | cons m queue =>
    rw [turn] at h
    obtain ⟨⟨found, s⟩, hvisit, h⟩ := bind_eq_ok.1 h
    cases found with
    | some type =>
      dsimp only at h
      split at h <;> cases h
    | none =>
      dsimp only at h
      split at h
      case isTrue hfailed =>
        split at h
        · cases h
        case isFalse hcomplete =>
          refine ⟨Sum.inr.inj (Except.ok.inj h), .inr ⟨by simpa using hcomplete, m, s, ?_⟩⟩
          exact ⟨rfl, hfailed, hvisit⟩
      case isFalse => cases h

/-- A loop that ends, with a fault or with a progress, ends at a turn. -/
theorem Trail.of_run {p : Progress} {fuel : Nat} {l : Loop} {recent : List Member}
    {result : Outcome Progress} (h : Trail ctx members onePass p l recent)
    (hrun : l.run ctx members onePass complete fuel = result) (hends : result ≠ .error .exhausted) :
    ∃ last recent', Trail ctx members onePass p last recent' ∧
      last.turn ctx members onePass complete = Sum.inr <$> result := by
  induction fuel generalizing l recent with
  | zero => exact absurd hrun.symm hends
  | succ fuel ih =>
    rw [Loop.run_succ] at hrun
    cases hturn : l.turn ctx members onePass complete with
    | error e =>
      rw [hturn, error_bind] at hrun
      exact ⟨l, recent, h, by rw [hturn, ← hrun]; rfl⟩
    | ok next =>
      rw [hturn, ok_bind] at hrun
      cases next with
      | inl next =>
        obtain ⟨recent', hnext⟩ := h.turn hturn
        exact ih hnext hrun
      | inr q => exact ⟨l, recent, h, by rw [hturn, ← hrun]; rfl⟩

/-! ### What the members visited last say -/

/-- The writers of a variable say nothing, for some table between `t` and `u`. -/
def SaysNothing (ctx : Context) (env : Env) (t u : Table) (m : Member) : Prop :=
  ∃ T s, t.Grows T ∧ attempt (writtenType { ctx with env } m) T = .ok (none, s) ∧ T.Grows u

theorem SaysNothing.grows {env : Env} {t u v : Table} {m : Member}
    (h : SaysNothing ctx env t u m) (huv : u.Grows v) : SaysNothing ctx env t v m := by
  obtain ⟨T, s, hT, hattempt, hu⟩ := h
  exact ⟨T, s, hT, hattempt, hu.trans huv⟩

/-- It matters only which types the writers read. -/
theorem SaysNothing.congr_env {env env' : Env} {t u : Table} {m : Member}
    (h : SaysNothing ctx env t u m)
    (hreads : ∀ i ∈ m.writers, ∀ read ∈ i.readNames, env'[read]? = env[read]?) :
    SaysNothing ctx env' t u m := by
  obtain ⟨T, s, hT, hattempt, hu⟩ := h
  refine ⟨T, s, hT, ?_, hu⟩
  rw [writtenType_congr_env hreads]
  exact hattempt

namespace Trail

variable {p : Progress} {l : Loop} {recent : List Member}

/-- A loop on its way has made steps at its members. -/
theorem steps (h : Trail ctx members onePass p l recent) :
    Steps ctx members p l.progress ∧ l.queue ⊆ members ∧ recent ⊆ members := by
  induction h with
  | start => exact ⟨.refl p, List.Subset.refl _, List.nil_subset _⟩
  | again _ _ _ _ ih => exact ⟨ih.1, List.Subset.refl _, ih.2.2⟩
  | confirm _ hqueue hvisit henv ih =>
    obtain ⟨hsteps, hsub, hrecent⟩ := ih
    rw [hqueue] at hsub
    obtain ⟨hm, hsub⟩ := List.cons_subset.1 hsub
    have hassign := hsteps.assign hm hvisit
    rw [Progress.assign_of_env_eq henv] at hassign
    exact ⟨hassign, hsub, List.cons_subset.2 ⟨hm, hrecent⟩⟩
  | assign _ hqueue hvisit _ ih =>
    obtain ⟨hsteps, hsub, -⟩ := ih
    rw [hqueue] at hsub
    obtain ⟨hm, hsub⟩ := List.cons_subset.1 hsub
    exact ⟨hsteps.assign hm hvisit, hsub, List.nil_subset _⟩
  | @defer l _ queue m _ _ hqueue _ _ ih =>
    obtain ⟨hsteps, hsub, hrecent⟩ := ih
    rw [hqueue] at hsub
    obtain ⟨hm, hsub⟩ := List.cons_subset.1 hsub
    have hlast : [m] ⊆ members := by simpa using hm
    exact ⟨hsteps, List.append_subset.2 ⟨hsub, hlast⟩, List.cons_subset.2 ⟨hm, hrecent⟩⟩

variable (hinfer : GrowsTable ctx.infer) (hp : p.Sound)

include hinfer hp

/-- A turn that keeps the types lets the table grow. -/
theorem record_grows (h : Trail ctx members onePass p l recent) {m : Member}
    {type : ElementType} {s : State}
    (hvisit : l.progress.evaluate ctx m = .ok (some type, s)) : l.progress.table.Grows s.table := by
  obtain ⟨-, hsound⟩ := h.steps.1.grows hinfer hp
  exact (hsound.attempt (evolution_writtenType { ctx with env := l.progress.env }
    (evolution_grows hinfer) m) hvisit).1

variable {t : Table} (hgrows : t.Grows p.table)

include hgrows

theorem grows (h : Trail ctx members onePass p l recent) : t.Grows l.progress.table :=
  hgrows.trans (h.steps.1.grows hinfer hp).1

/-- The members visited since a type last changed say what they are, or nothing. -/
theorem said (h : Trail ctx members onePass p l recent) {m : Member} (hm : m ∈ recent) :
    Confirmed ctx l.progress.env t l.progress.table m ∨
      SaysNothing ctx l.progress.env t l.progress.table m := by
  induction h generalizing m with
  | start => cases hm
  | again _ _ _ _ ih => exact ih hm
  | @confirm l _ _ visited type s htrail _ hvisit henv ih =>
    have hs : l.progress.table.Grows s.table := htrail.record_grows hinfer hp hvisit
    rcases List.mem_cons.1 hm with rfl | hm
    · exact .inl ⟨type, l.progress.table, s, henv, htrail.grows hinfer hp hgrows, hvisit, .refl _⟩
    · exact (ih hm).imp (·.grows hs) (·.grows hs)
  | assign => cases hm
  | @defer l _ _ visited s htrail _ hvisit _ ih =>
    rcases List.mem_cons.1 hm with rfl | hm
    · exact .inr ⟨l.progress.table, s, htrail.grows hinfer hp hgrows, hvisit, .refl _⟩
    · exact ih hm

/-- A member that failed since a type last changed said nothing. -/
theorem saysNothing (hnames : (members.map (·.name)).Nodup)
    (h : Trail ctx members onePass p l recent) {m : Member} (hm : m ∈ members)
    (hfailed : l.failed.contains m.name = true) :
    SaysNothing ctx l.progress.env t l.progress.table m := by
  induction h with
  | start => simp [Loop.start] at hfailed
  | again _ _ _ _ ih => exact ih hfailed
  | confirm htrail _ hvisit _ ih => exact (ih hfailed).grows (htrail.record_grows hinfer hp hvisit)
  | assign => simp at hfailed
  | @defer l _ _ visited s htrail hqueue hvisit _ ih =>
    by_cases hname : visited.name = m.name
    · have hvisited : visited ∈ members := htrail.steps.2.1 (by simp [hqueue])
      obtain rfl := List.inj_on_of_nodup_map hnames hvisited hm hname
      exact ⟨l.progress.table, s, htrail.grows hinfer hp hgrows, hvisit, .refl _⟩
    · exact ih (by simpa [Std.ExtTreeSet.contains_insert, hname] using hfailed)

end Trail

/-! ### Where visits can be repeated -/

/-- What holds of a loop on its way if a member that said nothing says nothing as long as the types
stay: those that failed are the last of the queue. -/
structure Orderly (members : List Member) (l : Loop) (recent : List Member) : Prop where
  nodup : (l.queue.map (·.name)).Nodup
  deferred {m : Member} : m ∈ members → l.failed.contains m.name = true → m ∈ l.queue ∧ m ∈ recent
  last : l.queue.Pairwise fun a b => l.failed.contains a.name = true →
    l.failed.contains b.name = true
  covers : l.changed = false → ∀ m ∈ members, m ∈ l.queue ∨ m ∈ recent

namespace Orderly

variable {l : Loop} {recent queue : List Member} {m : Member}

/-- A loop that is given up in a pass without a change has visited all members since the last
change. -/
theorem mem_recent (h : Orderly members l recent) (hqueue : l.queue = m :: queue)
    (hfailed : l.failed.contains m.name = true) (hchanged : l.changed = false) :
    ∀ m ∈ members, m ∈ recent := by
  have hall : ∀ other ∈ l.queue, l.failed.contains other.name = true := by
    intro other hother
    have hlast := h.last
    rw [hqueue] at hother hlast
    rcases List.mem_cons.1 hother with rfl | hother
    · exact hfailed
    · exact List.rel_of_pairwise_cons hlast hother hfailed
  intro other hother
  rcases h.covers hchanged other hother with hmem | hmem
  · exact (h.deferred hother (hall other hmem)).2
  · exact hmem

theorem start (hnames : (members.map (·.name)).Nodup) (p : Progress) :
    Orderly members (.start members p) [] where
  nodup := hnames
  deferred _ hfailed := by simp [Loop.start] at hfailed
  last := List.pairwise_of_forall fun _ _ hfailed => by simp [Loop.start] at hfailed
  covers _ _ hm := .inl hm

theorem again (hnames : (members.map (·.name)).Nodup) (h : Orderly members l recent)
    (hqueue : l.queue = []) :
    Orderly members { l with queue := members, changed := false } recent := by
  -- whoever failed is in the queue, which is empty
  have hnone : ∀ m ∈ members, ¬l.failed.contains m.name = true := by
    intro m hm hfailed
    have hmem := (h.deferred hm hfailed).1
    rw [hqueue] at hmem
    cases hmem
  refine ⟨hnames, fun hm hfailed => absurd hfailed (hnone _ hm), ?_, fun _ m hm => .inl hm⟩
  exact List.pairwise_iff_forall_sublist.2 fun {a b} hab hfailed =>
    absurd hfailed (hnone a (hab.subset (by simp)))

theorem confirm (h : Orderly members l recent) (hqueue : l.queue = m :: queue)
    (hfresh : ¬l.failed.contains m.name = true) (p : Progress) :
    Orderly members { l with queue, progress := p } (m :: recent) := by
  obtain ⟨hnodup, hdeferred, hlast, hcovers⟩ := h
  rw [hqueue] at hnodup hdeferred hlast hcovers
  refine ⟨hnodup.of_cons, fun {other} hother hfailed => ?_, hlast.of_cons,
    fun hchanged other hother => ?_⟩
  · obtain ⟨hmem, hrecent⟩ := hdeferred hother hfailed
    have hne : other ≠ m := by
      rintro rfl
      exact hfresh hfailed
    exact ⟨List.mem_of_ne_of_mem hne hmem, List.mem_cons_of_mem _ hrecent⟩
  · rcases hcovers hchanged other hother with hmem | hmem
    · rcases List.mem_cons.1 hmem with rfl | hmem
      · exact .inr List.mem_cons_self
      · exact .inl hmem
    · exact .inr (List.mem_cons_of_mem _ hmem)

theorem assign (h : Orderly members l recent) (hqueue : l.queue = m :: queue) (p : Progress) :
    Orderly members ⟨queue, ∅, true, p⟩ [] := by
  have hnodup := h.nodup
  rw [hqueue] at hnodup
  refine ⟨hnodup.of_cons, fun _ hfailed => ?_, ?_, fun hchanged => nomatch hchanged⟩
  · simp at hfailed
  · exact List.pairwise_of_forall fun a b hfailed => by simp at hfailed

theorem defer (hnames : (members.map (·.name)).Nodup) (h : Orderly members l recent)
    (hqueue : l.queue = m :: queue) (hm : m ∈ members) :
    Orderly members { l with queue := queue ++ [m], failed := l.failed.insert m.name }
      (m :: recent) := by
  obtain ⟨hnodup, hdeferred, hlast, hcovers⟩ := h
  rw [hqueue] at hnodup hdeferred hlast hcovers
  have hrotate {other : Member} (hmem : other ∈ m :: queue) : other ∈ queue ++ [m] := by
    simpa [or_comm] using hmem
  have hinsert (name : String) : (l.failed.insert m.name).contains name = true ↔
      m.name = name ∨ l.failed.contains name = true := by
    simp [Std.ExtTreeSet.contains_insert]
  refine ⟨?_, fun {other} hother hfailed => ?_, ?_, fun hchanged other hother => ?_⟩
  · rw [List.map_append, List.map_singleton]
    exact List.nodup_append_comm.1 hnodup
  · rcases (hinsert _).1 hfailed with hname | hfailed
    · obtain rfl := List.inj_on_of_nodup_map hnames hm hother hname
      exact ⟨hrotate List.mem_cons_self, List.mem_cons_self⟩
    · obtain ⟨hmem, hrecent⟩ := hdeferred hother hfailed
      exact ⟨hrotate hmem, List.mem_cons_of_mem _ hrecent⟩
  · -- the member goes behind all others, and no other has its name
    have hbefore : queue.Pairwise fun a b => (l.failed.insert m.name).contains a.name = true →
        (l.failed.insert m.name).contains b.name = true := by
      refine hlast.of_cons.imp_of_mem fun {a b} ha _ hab hfailed => ?_
      have hne : m.name ≠ a.name := by
        intro hname
        have hmem : m.name ∈ queue.map (·.name) := by
          rw [hname]
          exact List.mem_map_of_mem ha
        exact (List.nodup_cons.1 hnodup).1 hmem
      exact (hinsert _).2 (.inr (hab (((hinsert _).1 hfailed).resolve_left hne)))
    refine List.pairwise_append.2 ⟨hbefore, List.pairwise_singleton _ _, fun a _ b hb _ => ?_⟩
    obtain rfl := List.mem_singleton.1 hb
    exact (hinsert _).2 (.inl rfl)
  · rcases hcovers hchanged other hother with hmem | hmem
    · exact .inl (hrotate hmem)
    · exact .inr (List.mem_cons_of_mem _ hmem)

end Orderly

theorem Trail.orderly {p : Progress} {t : Table} {l : Loop} {recent : List Member}
    (hinfer : GrowsTable ctx.infer) (hp : p.Sound) (hgrows : t.Grows p.table)
    (hnames : (members.map (·.name)).Nodup)
    (hstays : ∀ (q : Progress) m, m ∈ members → SaysNothing ctx q.env t q.table m →
      ∃ s, q.evaluate ctx m = .ok (none, s))
    (h : Trail ctx members onePass p l recent) : Orderly members l recent := by
  induction h with
  | start => exact .start hnames p
  | again _ hqueue _ _ ih => exact ih.again hnames hqueue
  | @confirm l _ _ m _ _ htrail hqueue hvisit _ ih =>
    have hm : m ∈ members := htrail.steps.2.1 (by simp [hqueue])
    refine ih.confirm hqueue (fun hfailed => ?_) _
    have hnothing := htrail.saysNothing hinfer hp hgrows hnames hm hfailed
    obtain ⟨s', hnone⟩ := hstays l.progress m hm hnothing
    cases hvisit.symm.trans hnone
  | assign _ hqueue _ _ ih => exact ih.assign hqueue _
  | defer htrail hqueue _ _ ih => exact ih.defer hnames hqueue (htrail.steps.2.1 (by simp [hqueue]))

/-- Another visit of the member finds nothing, or the type that it has. -/
def Stuck (ctx : Context) (p : Progress) (m : Member) : Prop :=
  ∃ found s, p.evaluate ctx m = .ok (found, s) ∧
    ∀ type, found = some type → p.env[m.name]? = some type

section Repeated

variable {R : String → Prop} {m : Member} {t : Table} {q : Progress}

/-- A member that said what it is says so again as long as the types stay, if only grounded entries
were added. -/
theorem Confirmed.evaluate
    (hrepeats : RepeatsAt R (writtenType { ctx with env := q.env } m)) (ht : t.isEditing = true)
    (hR : Table.GroundedAt R t) (hgrown : t.GrowsGrounded q.table)
    (h : Confirmed ctx q.env t q.table m) :
    ∃ type s, q.env[m.name]? = some type ∧ q.evaluate ctx m = .ok (some type, s) ∧
      s.table = q.table := by
  obtain ⟨type, T, s, htype, hT, hattempt, hs⟩ := h
  have hfinal := hrepeats.exec_of_between ht hR hgrown hT (attempt_eq_some.1 hattempt) hs
  exact ⟨type, _, htype, attempt_eq_some.2 hfinal, rfl⟩

theorem Confirmed.stuck (hrepeats : RepeatsAt R (writtenType { ctx with env := q.env } m))
    (ht : t.isEditing = true) (hR : Table.GroundedAt R t) (hgrown : t.GrowsGrounded q.table)
    (h : Confirmed ctx q.env t q.table m) : Stuck ctx q m := by
  obtain ⟨type, s, htype, hvisit, -⟩ := h.evaluate hrepeats ht hR hgrown
  refine ⟨some type, s, hvisit, fun found hfound => ?_⟩
  rw [htype, hfound]

variable (hgrows : GrowsTable ctx.infer) (hsame : SameTypes R ctx.infer)
  (honly : InstructionsOnly R ctx.kernel) (hm : ∀ i ∈ m.writers, i ∈ ctx.kernel.instructions)
  (ht : t.isEditing = true) (hlinked : Table.Linked R t)

include hgrows hsame honly hm ht hlinked

/-- A member that said nothing says nothing again as long as the types stay. -/
theorem SaysNothing.evaluate (h : SaysNothing ctx q.env t q.table m) :
    ∃ s, q.evaluate ctx m = .ok (none, s) := by
  obtain ⟨T, s, hT, hattempt, hu⟩ := h
  have hsame := sameResults_writtenType hgrows hsame honly hm q.env
  exact exists_attempt_none hsame (hT.isEditing_eq.trans ht) (hlinked.grows hT) hattempt hu

theorem SaysNothing.stuck (h : SaysNothing ctx q.env t q.table m) : Stuck ctx q m := by
  obtain ⟨s, hvisit⟩ := h.evaluate hgrows hsame honly hm ht hlinked
  exact ⟨none, s, hvisit, fun type htype => nomatch htype⟩

end Repeated

/-- If all entries that the kernel can reach are in the table from the start, a loop that is given
up in a pass without a change has visited all members since the last change. -/
theorem Trail.mem_recent_of_givesUp {target : Target} {fuel : Nat} {k e : Kernel} {t : Table}
    {names : List String} {p : Progress} {l : Loop} {recent : List Member} {m : Member} {s : State}
    (he : k.expand = .ok e) (ht : t.isEditing = true) (hlinked : t.LinkedFrom k)
    (hp : ReachesComponent (inferContext target fuel e) complete fuel t names p)
    (h : Trail (inferContext target fuel e) (names.map (.ofName e)) onePass p l recent)
    (hgivesUp : l.GivesUp (inferContext target fuel e) m s) (hchanged : l.changed = false) :
    ∀ x ∈ names.map (.ofName e), x ∈ recent := by
  have hgrows := inferKernel_grows target fuel true
  have hsame := inferKernel_sameTypes (R := t.Reaches k) target fuel true
  have honly := instructionsOnly_of_expand (k.callsOnly_reaches t) he
  obtain ⟨htp, hsound⟩ := hp.grows hgrows ht
  have hnames : ((names.map (.ofName e)).map Member.name).Nodup := by
    rw [List.map_map]
    have hnodup : names.Nodup := Dependencies.nodup_of_mem_components hp.mem
    simpa [Function.comp_def, Member.ofName] using hnodup
  have horderly : Orderly (names.map (.ofName e)) l recent :=
    h.orderly hgrows hsound htp hnames fun q m hm hnothing =>
      hnothing.evaluate hgrows hsame honly (writersIn_ofName e names m hm) ht hlinked.linked
  obtain ⟨hnext, hfailed, -⟩ := hgivesUp
  obtain ⟨queue, hqueue⟩ := List.head?_eq_some_iff.1 hnext
  exact horderly.mem_recent hqueue hfailed hchanged

end Inference

open Inference

/-- **When the loop of a component is given up.**  A component fails where a visit fails, or at a
member that says nothing for the second time since a type last changed.  The members visited since
then say nothing or what they are, from a table that inference passed through.  If no entry that the
kernel can reach refers to a name without an entry, those that say what they are say the same from
the present table.  If all entries that the kernel can reach are in the table from the start, so do
the others, and the component is stuck as a whole where no type has changed in the current pass. -/
theorem stuck_of_settleComponent_error {target : Target} {fuel : Nat} {k e : Kernel} {t : Table}
    {names : List String} {p : Progress} {f : Fault} (he : k.expand = .ok e)
    (ht : t.isEditing = true)
    (hp : ReachesComponent (inferContext target fuel e) true fuel t names p)
    (h : settleComponent (inferContext target fuel e) (openDependencies e) true fuel p names =
      .error (.fault f)) :
    let ctx := inferContext target fuel e
    let members := names.map (.ofName e)
    ∃ l recent m, Trail ctx members (needsOnePass (openDependencies e) names) p l recent ∧
      l.queue.head? = some m ∧ (l.progress.evaluate ctx m = .error (.fault f) ∨
        ∃ s, l.GivesUp ctx m s ∧ f = .undetermined m.name s.unknown.toList e.name ∧
          (∀ x ∈ recent, Confirmed ctx l.progress.env t l.progress.table x ∨
            SaysNothing ctx l.progress.env t l.progress.table x) ∧
          (t.Intact (t.Reaches k) → ∀ x ∈ recent,
            Confirmed ctx l.progress.env t l.progress.table x → Stuck ctx l.progress x) ∧
          (t.LinkedFrom k → (∀ x ∈ recent, Stuck ctx l.progress x) ∧
            (l.changed = false → ∀ x ∈ members, Stuck ctx l.progress x))) := by
  intro ctx members
  have hgrows := inferKernel_grows target fuel true
  obtain ⟨htp, hsound⟩ := hp.grows hgrows ht
  obtain ⟨l, recent, htrail, hturn⟩ := Trail.of_run .start h (by simp)
  obtain ⟨m, queue, hqueue, hvisit | ⟨s, hgivesUp, hf⟩⟩ := Loop.turn_eq_fault hturn
  · exact ⟨l, recent, m, htrail, by rw [hqueue]; rfl, .inl hvisit⟩
  have hsaid : ∀ x ∈ recent, Confirmed ctx l.progress.env t l.progress.table x ∨
      SaysNothing ctx l.progress.env t l.progress.table x :=
    fun x hx => htrail.said hgrows hsound htp hx
  have hconfirmed (hintact : t.Intact (t.Reaches k)) {x : Member} (hx : x ∈ recent)
      (h : Confirmed ctx l.progress.env t l.progress.table x) : Stuck ctx l.progress x := by
    have hsteps : Steps ctx (openMembers e) ⟨startEnv e, t, .empty⟩ l.progress :=
      hp.steps.trans (htrail.steps.1.mono (List.map_subset _ hp.subset))
    have hwriters := writersIn_ofName e names x (htrail.steps.2.2 hx)
    exact h.stuck (repeatsAt_writtenType_reaches he t l.progress.env hwriters) ht
      hintact.groundedAt_reaches (hsteps.growsGrounded he ht hintact)
  refine ⟨l, recent, m, htrail, hgivesUp.1, .inr ⟨s, hgivesUp, hf, hsaid, fun hintact x hx =>
    hconfirmed hintact hx, fun hlinked => ?_⟩⟩
  have hstuck : ∀ x ∈ recent, Stuck ctx l.progress x := by
    intro x hx
    rcases hsaid x hx with h | h
    · exact hconfirmed hlinked.intact hx h
    · exact h.stuck hgrows (inferKernel_sameTypes target fuel true)
        (instructionsOnly_of_expand (k.callsOnly_reaches t) he)
        (writersIn_ofName e names x (htrail.steps.2.2 hx)) ht hlinked.linked
  refine ⟨hstuck, fun hchanged x hx => hstuck x ?_⟩
  exact htrail.mem_recent_of_givesUp he ht hlinked hp hgivesUp hchanged x hx

/-- Two variables that are assigned to each other and to nothing else. -/
def seedlessKernel : Kernel := { Kernel.empty "k" with
  temporaries := [⟨"a", .unknown, .temporary⟩, ⟨"b", .unknown, .temporary⟩]
  instructions := [⟨"a", .assign (.var "a") (.var "b")⟩, ⟨"b", .assign (.var "b") (.var "a")⟩] }

theorem stuck_of_settleComponent_error_seedlessKernel :
    let ctx := inferContext .cLike 8 seedlessKernel
    let members := ["a", "b"].map (.ofName seedlessKernel)
    ∃ p l recent m, Trail ctx members false p l recent ∧ l.queue.head? = some m ∧
      (l.progress.evaluate ctx m = .error (.fault (.undetermined "a" ["b"] "k")) ∨
        ∃ s, l.GivesUp ctx m s ∧ (∀ x ∈ recent, Stuck ctx l.progress x) ∧
          (l.changed = false → ∀ x ∈ members, Stuck ctx l.progress x)) := by
  intro ctx members
  let p : Progress := ⟨startEnv seedlessKernel, Table.empty.beginEdit.1, .empty⟩
  have hcomponents : openComponents seedlessKernel = [] ++ ["a", "b"] :: [] := by cbv
  have hreaches : ReachesComponent ctx true 8 Table.empty.beginEdit.1 ["a", "b"] p :=
    ⟨[], [], hcomponents, rfl⟩
  have hfails : settleComponent ctx (openDependencies seedlessKernel) true 8 p ["a", "b"] =
      .error (.fault (.undetermined "a" ["b"] "k")) := by cbv
  have hlinked := Table.linkedFrom_of_calledEntries (k := seedlessKernel) (by cbv)
    Table.empty.beginEdit.1
  obtain ⟨l, recent, m, htrail, hnext, hvisit | ⟨s, hgivesUp, -, -, -, hstuck⟩⟩ :=
    stuck_of_settleComponent_error (k := seedlessKernel) rfl rfl hreaches hfails
  · exact ⟨_, l, recent, m, htrail, hnext, .inl hvisit⟩
  · obtain ⟨hrecent, hmembers⟩ := hstuck hlinked
    exact ⟨_, l, recent, m, htrail, hnext, .inr ⟨s, hgivesUp, hrecent, hmembers⟩⟩

/-! ### Given up too early -/

namespace Inference

/-- Where a loop is given up: the next member, if it failed before and says nothing now, with the
type of a member and the one that its writers assign to it. -/
def Loop.verdict (ctx : Context) (l : Loop) (x : Member) :
    Option (String × Option ElementType × Option ElementType) :=
  match l.queue with
  | [] => none
  | m :: _ =>
    match l.progress.evaluate ctx m, l.progress.evaluate ctx x with
    | .ok (none, _), .ok (type, _) =>
      if l.failed.contains m.name then some (m.name, l.progress.env[x.name]?, type) else none
    | _, _ => none

theorem Loop.givesUp_of_verdict {ctx : Context} {l : Loop} {x : Member} {name : String}
    {old : Option ElementType} {type : ElementType}
    (h : l.verdict ctx x = some (name, old, some type)) (hold : old ≠ some type) :
    (∃ m s, l.GivesUp ctx m s ∧ m.name = name) ∧ ¬Stuck ctx l.progress x := by
  obtain ⟨queue, failed, changed, p⟩ := l
  unfold verdict at h
  dsimp only at h
  split at h
  case h_1 => cases h
  case h_2 m queue =>
    split at h
    case h_1 s found s' hvisit hx =>
      split at h
      case isTrue hfailed =>
        obtain ⟨hname, henv, rfl⟩ : m.name = name ∧ p.env[x.name]? = old ∧ found = some type := by
          simpa using h
        refine ⟨⟨m, s, ⟨rfl, hfailed, hvisit⟩, hname⟩, ?_⟩
        rintro ⟨found, s'', hvisit', hstuck⟩
        obtain ⟨rfl, -⟩ := Prod.mk.inj (Except.ok.inj (hx.symm.trans hvisit'))
        exact hold (henv.symm.trans (hstuck type rfl))
      case isFalse => cases h
    case h_2 => cases h

end Inference

/-- A function of a variable in a cycle, whose first type is a small integer. -/
def eagerKernel (function : String) : Kernel := { Kernel.empty "k" with
  args := [⟨"n", .known (.scalar .int8), .input⟩, ⟨"f", .known .float32, .input⟩]
  temporaries := [⟨"x", .unknown, .temporary⟩, ⟨"y", .unknown, .temporary⟩,
    ⟨"z", .unknown, .temporary⟩]
  instructions := [
    ⟨"x", .assign (.var "x") (.nary .sum [.var "y", .var "n"])⟩,
    ⟨"y", .assign (.var "y") (.nary .sum [.var "z", .var "f"])⟩,
    ⟨"z", .assign (.var "z") (.call (.bare function) [.var "x"] [])⟩] }

/-- The loop of its only component after a number of turns, for a root. -/
def eagerLoop (turns : Nat) : Option Loop :=
  let members := ["x", "y", "z"].map (.ofName (eagerKernel "sqrt"))
  Loop.after (inferContext .cLike 8 (eagerKernel "sqrt")) members false true turns
    (.start members ⟨startEnv (eagerKernel "sqrt"), Table.empty.beginEdit.1, .empty⟩)

/-- The first pass gives `x` a small integer type, of which there is no root, and `y` a type that
would make `x` a single.  The component is given up at `z` before `x` is visited again. -/
theorem eagerKernel_not_stuck :
    let e := eagerKernel "sqrt"
    let members := ["x", "y", "z"].map (.ofName e)
    let p : Progress := ⟨startEnv e, Table.empty.beginEdit.1, .empty⟩
    openComponents e = [["x", "y", "z"]] ∧
      settleComponent (inferContext .cLike 8 e) (openDependencies e) true 8 p ["x", "y", "z"] =
        .error (.fault (.undetermined "z" [] "k")) ∧
      ∃ l recent m s, Trail (inferContext .cLike 8 e) members false p l recent ∧
        l.GivesUp (inferContext .cLike 8 e) m s ∧ m.name = "z" ∧
        ∃ x ∈ members, ¬Stuck (inferContext .cLike 8 e) l.progress x := by
  intro e members p
  have hloop : (eagerLoop 3).bind
      (Loop.verdict (inferContext .cLike 8 (eagerKernel "sqrt")) ·
        (.ofName (eagerKernel "sqrt") "x")) =
      some ("z", some (.scalar .int8), some .float32) := by cbv
  obtain ⟨l, hl, hverdict⟩ := Option.bind_eq_some_iff.1 hloop
  obtain ⟨⟨m, s, hgivesUp, hname⟩, hx⟩ := Loop.givesUp_of_verdict hverdict (by decide)
  obtain ⟨recent, htrail⟩ := Trail.of_after .start hl
  refine ⟨by cbv, by cbv, l, recent, m, s, htrail, hgivesUp, hname, _, ?_, hx⟩
  exact List.mem_cons_self

end KernelTyping
