import KernelTyping.Proofs.Inference.GivingUp

/-!
# KernelTyping.Proofs.Inference.BestEffort — types where some may stay open

Where inference succeeds with all types expected, no component is given up and nothing stays open.
So it takes the same turns without that expectation and comes to the same kernel and table
(`bestEffort_of_complete`).

Where not all types are expected, inference leaves a component that is given up as it is and goes on
with the next one.  A component that is not given up is settled as it would be with all types
expected (`Trail.settled_or_givesUp`).  So a type in the result is what the writers of the variable
assign to it, unless its component was given up before the variable was visited again, or when its
writers had nothing to say any more (`types_consistent_or_givenUp`).  The first happens
(`eagerKernel_inconsistent`).
-/

namespace KernelTyping

open Evaluation

/-! ### Where all types are found -/

namespace Inference

variable {ctx : Context} {members : List Member} {onePass complete : Bool} {fuel : Nat}

/-- A loop that is settled with all types expected takes the same turns whether they are or not. -/
theorem Settling.of_complete {queue : List Member} {failed : NameSet} {changed : Bool}
    {p q : Progress} (h : Settling ctx members onePass true q fuel queue failed changed p) :
    Settling ctx members onePass complete q fuel queue failed changed p := by
  induction h with
  | again honePass _ ih => exact .again honePass ih
  | done hchanged => exact .done hchanged
  | confirm hattempt henv _ ih => exact .confirm hattempt henv ih
  | assign hattempt henv _ ih => exact .assign hattempt henv ih
  | defer hattempt hfailed _ ih => exact .defer hattempt hfailed ih
  | giveUp _ _ hcomplete => cases hcomplete

theorem settleComponent_of_complete {d : Dependencies} {names : List String} {p q : Progress}
    (h : settleComponent ctx d true fuel p names = .ok q) :
    settleComponent ctx d complete fuel p names = .ok q :=
  settle_eq_ok.2 (settle_eq_ok.1 h).of_complete

/-- One component after the other is settled the same way. -/
theorem foldlM_settleComponent_of_complete {d : Dependencies} {components : List (List String)}
    {p q : Progress} (h : components.foldlM (settleComponent ctx d true fuel) p = .ok q) :
    components.foldlM (settleComponent ctx d complete fuel) p = .ok q := by
  induction components generalizing p with
  | nil => exact h
  | cons names components ih =>
    rw [List.foldlM_cons] at h ⊢
    obtain ⟨r, hr, hq⟩ := bind_eq_ok.1 h
    rw [settleComponent_of_complete hr]
    exact ih hq

variable {target : Target} {infer : Inference} {k k' : Kernel} {t t' : Table}

theorem inferWith_of_complete (h : inferWith target infer true fuel k t = .ok (k', t')) :
    inferWith target infer complete fuel k t = .ok (k', t') := by
  obtain ⟨ht, e, p, he, hp, hfinish⟩ := inferWith_eq_ok.1 h
  obtain ⟨q, hq, hcalls⟩ := inferExpanded_eq_ok.1 hp
  obtain ⟨hrename, htable, hchecked⟩ := finishKernel_eq_ok.1 hfinish
  have hsettled : inferExpanded ⟨target, e, startEnv e, infer⟩ complete fuel t = .ok p :=
    inferExpanded_eq_ok.2 ⟨q, foldlM_settleComponent_of_complete hq, hcalls⟩
  have hfinished : finishKernel complete k p = .ok (k', t') :=
    finishKernel_eq_ok.2 ⟨hrename, htable, fun _ => hchecked rfl⟩
  exact inferWith_eq_ok.2 ⟨ht, e, p, he, hsettled, hfinished⟩

end Inference

theorem inferKernel_of_complete {target : Target} {fuel : Nat} {complete : Bool} {k k' : Kernel}
    {t t' : Table} (h : inferKernel target fuel true k t = .ok (k', t')) :
    inferKernel target fuel complete k t = .ok (k', t') := by
  -- the kernels that are called are inferred with all types expected in either case
  cases fuel with
  | zero => cases h
  | succ fuel => exact Inference.inferWith_of_complete h

/-- **Both modes agree on success.**  Whenever inference succeeds with all types expected, it
succeeds without that, with the same kernel, names of specializations included, and the same
table. -/
theorem bestEffort_of_complete {target : Target} {fuel : Nat} {k k' : Kernel} {t t' : Table}
    (h : infer target fuel true k t = .ok (k', t')) :
    infer target fuel false k t = .ok (k', t') := by
  obtain ⟨u, hu, hcommit⟩ := infer_eq_ok_iff.1 h
  exact infer_eq_ok_iff.2 ⟨u, inferKernel_of_complete hu, hcommit⟩

theorem bestEffort_of_complete_cyclicKernel :
    ∃ k' t', infer .cLike 8 true cyclicKernel absLibrary = .ok (k', t') ∧
      infer .cLike 8 false cyclicKernel absLibrary = .ok (k', t') := by
  obtain ⟨t', h⟩ := exists_infer_of_inferKernel (t := absLibrary) inferKernel_cyclicKernel
  exact ⟨_, t', h, bestEffort_of_complete h⟩

namespace Inference

variable {ctx : Context} {members : List Member} {onePass complete : Bool}

/-! ### Components that are not given up -/

/-- A turn after which the loop goes on does not depend on whether all types are expected. -/
theorem Loop.turn_of_goes_on {l next : Loop}
    (h : l.turn ctx members onePass complete = .ok (.inl next)) :
    l.turn ctx members onePass true = .ok (.inl next) := by
  obtain ⟨queue, failed, changed, p⟩ := l
  cases queue with
  | nil => exact h
  | cons m queue =>
    rw [turn] at h
    obtain ⟨⟨found, s⟩, hvisit, h⟩ := bind_eq_ok.1 h
    rw [turn]
    refine bind_eq_ok.2 ⟨(found, s), hvisit, ?_⟩
    cases found with
    | some type => exact h
    | none =>
      dsimp only at h ⊢
      by_cases hfailed : failed.contains m.name = true
      · rw [if_pos hfailed] at h
        split at h <;> cases h
      · rw [if_neg hfailed] at h ⊢
        exact h

/-- A loop that comes to an end does so with all types expected, or it is given up. -/
theorem Trail.settled_or_givesUp {p q : Progress} {fuel : Nat} {l : Loop} {recent : List Member}
    (h : Trail ctx members onePass p l recent)
    (hrun : l.run ctx members onePass complete fuel = .ok q) :
    l.run ctx members onePass true fuel = .ok q ∨
      ∃ last recent' m s, Trail ctx members onePass p last recent' ∧ last.GivesUp ctx m s ∧
        last.progress = q := by
  induction fuel generalizing l recent with
  | zero => cases hrun
  | succ fuel ih =>
    rw [Loop.run_succ] at hrun ⊢
    obtain ⟨next, hturn, hrun⟩ := bind_eq_ok.1 hrun
    cases next with
    | inl next =>
      obtain ⟨recent', hnext⟩ := h.turn hturn
      rw [Loop.turn_of_goes_on hturn]
      exact ih hnext hrun
    | inr r =>
      obtain rfl := Except.ok.inj hrun
      obtain ⟨hprogress, hdone | ⟨-, m, s, hgivesUp⟩⟩ := Loop.turn_eq_done hturn
      · rw [hdone]
        exact .inl rfl
      · exact .inr ⟨l, recent, m, s, h, hgivesUp, hprogress⟩

/-- All variables of a component are confirmed at its end, or it is given up. -/
theorem confirmed_or_givesUp (hinfer : GrowsTable ctx.infer) {names component : List String}
    (hsub : component ⊆ names) {fuel : Nat} {t : Table} {p q : Progress} (hp : p.Sound)
    (hgrows : t.Grows p.table)
    (h : settleComponent ctx (.ofKernel ctx.kernel names) complete fuel p component = .ok q) :
    (∀ x ∈ component, Confirmed ctx q.env t q.table (.ofName ctx.kernel x)) ∨
      ∃ l recent m s, Trail ctx (component.map (.ofName ctx.kernel))
        (needsOnePass (.ofKernel ctx.kernel names) component) p l recent ∧ l.GivesUp ctx m s ∧
        l.progress = q := by
  rcases Trail.settled_or_givesUp .start h with hsettled | hgivesUp
  · exact .inl (confirmed_of_settleComponent hinfer hsub hp hgrows hsettled)
  · exact .inr hgivesUp

/-! ### What the writers assign in the end -/

/-- An evaluation finds this from a table on the way from `t` to `u`, and from `u` itself under
conditions on what the kernel can reach in `t`. -/
structure Finds (k : Kernel) (t u : Table) (x : Eval (Option ElementType))
    (found : Option ElementType) : Prop where
  between : ∃ T s, t.Grows T ∧ attempt x T = .ok (found, s) ∧ T.Grows u
  /-- A type is found again if no entry refers to a name without an entry. -/
  intact : found ≠ none → t.Intact (t.Reaches k) →
    ∃ s, attempt x u = .ok (found, s) ∧ s.table = u
  /-- That there is none is found again if all entries are there. -/
  linked : t.LinkedFrom k → ∃ s, attempt x u = .ok (found, s)

section Finds

variable {target : Target} {fuel : Nat} {k e : Kernel} {t : Table} {q : Progress} {name : String}
  (he : k.expand = .ok e) (ht : t.isEditing = true)

include he ht

theorem Confirmed.finds {type : ElementType}
    (hgrown : t.Intact (t.Reaches k) → t.GrowsGrounded q.table)
    (h : Confirmed (inferContext target fuel e) q.env t q.table (.ofName e name))
    (htype : q.env[name]? = some type) :
    Finds k t q.table
      (writtenType { inferContext target fuel e with env := q.env } (.ofName e name))
      (some type) := by
  have hgrows := inferKernel_grows target fuel true
  have hfinal (hintact : t.Intact (t.Reaches k)) :
      ∃ s, q.evaluate (inferContext target fuel e) (.ofName e name) = .ok (some type, s) ∧
        s.table = q.table := by
    have hrepeats : RepeatsAt (t.Reaches k)
        (writtenType { inferContext target fuel e with env := q.env } (.ofName e name)) :=
      repeatsAt_writtenType_reaches he t q.env
        (writersIn_ofName e [name] _ (List.mem_singleton_self _))
    obtain ⟨type', s, htype', hvisit⟩ :=
      h.evaluate hrepeats ht hintact.groundedAt_reaches (hgrown hintact)
    obtain rfl := Option.some.inj (htype.symm.trans htype')
    exact ⟨s, hvisit⟩
  refine ⟨?_, fun _ => hfinal, fun hlinked => ?_⟩
  · obtain ⟨type', T, s, htype', hT, hattempt, hs⟩ := h
    obtain rfl := Option.some.inj (htype.symm.trans htype')
    have hevolution := evolution_writtenType { inferContext target fuel e with env := q.env }
      (evolution_grows hgrows) (.ofName e name)
    have hTs := (hevolution (attempt_eq_some.1 hattempt) (.start (hT.isEditing_eq.trans ht))).1
    exact ⟨T, s, hT, hattempt, hTs.trans hs⟩
  · obtain ⟨s, hvisit, -⟩ := hfinal hlinked.intact
    exact ⟨s, hvisit⟩

theorem SaysNothing.finds
    (h : SaysNothing (inferContext target fuel e) q.env t q.table (.ofName e name)) :
    Finds k t q.table
      (writtenType { inferContext target fuel e with env := q.env } (.ofName e name)) none := by
  refine ⟨h, fun hfound => absurd rfl hfound, fun hlinked => ?_⟩
  have honly := instructionsOnly_of_expand (k.callsOnly_reaches t) he
  exact h.evaluate (inferKernel_grows target fuel true) (inferKernel_sameTypes target fuel true)
    honly (writersIn_ofName e [name] _ (by simp)) ht hlinked.linked

/-- A variable of a component is confirmed when the component is left, or it was not visited since a
type changed last, or its writers say nothing. -/
theorem ReachesComponent.confirmed_or_givesUp {complete : Bool} {names : List String}
    {p r : Progress} (hp : ReachesComponent (inferContext target fuel e) complete fuel t names p)
    (hr : settleComponent (inferContext target fuel e) (openDependencies e) complete fuel p names =
      .ok r) (hname : name ∈ names) :
    let ctx := inferContext target fuel e
    let m := Member.ofName e name
    Confirmed ctx r.env t r.table m ∨ ∃ l recent last s,
      Trail ctx (names.map (.ofName e)) (needsOnePass (openDependencies e) names) p l recent ∧
        l.GivesUp ctx last s ∧ l.progress = r ∧
        ((m ∉ recent ∧ (t.LinkedFrom k → l.changed = true)) ∨
          SaysNothing ctx r.env t r.table m) := by
  intro ctx m
  have hgrows := inferKernel_grows target fuel true
  obtain ⟨htp, hsound⟩ := hp.grows hgrows ht
  rcases Inference.confirmed_or_givesUp hgrows hp.subset hsound htp hr with
    hconfirmed | ⟨l, recent, last, s, htrail, hgivesUp, rfl⟩
  · exact .inl (hconfirmed name hname)
  by_cases hrecent : m ∈ recent
  · refine (htrail.said hgrows hsound htp hrecent).imp_right fun hnothing => ?_
    exact ⟨l, recent, last, s, htrail, hgivesUp, rfl, .inr hnothing⟩
  · refine .inr ⟨l, recent, last, s, htrail, hgivesUp, rfl, .inl ⟨hrecent, fun hlinked => ?_⟩⟩
    -- without a change in the pass all members have been visited
    by_contra hchanged
    rw [Bool.not_eq_true] at hchanged
    exact hrecent (htrail.mem_recent_of_givesUp he ht hlinked hp hgivesUp hchanged _
      (List.mem_map_of_mem hname))

end Finds

end Inference

open Inference

/-- **Types where some may stay open.**  A type that inference gives to a variable is the one that
its writers assign to it under the types of the result, unless its component was given up.  Then the
variable was last visited before a type changed, in the pass in which its component was given up, or
its writers have nothing to say under the types of the result. -/
theorem types_consistent_or_givenUp {target : Target} {fuel : Nat} {k k' e : Kernel}
    {t t' : Table} (hnames : (k.declarations.map (·.name)).Nodup)
    (hids : (k.instructions.map (·.id)).Nodup)
    (h : inferKernel target (fuel + 1) false k t = .ok (k', t')) (he : k.expand = .ok e)
    {v : Variable} (hv : v ∈ k.declarations) (hopen : v.dtype.isKnown = false)
    (hparam : v.name ∉ k.params) {type : ElementType} (htype : k'.types[v.name]? = some type) :
    let ctx := inferContext target fuel e
    let m : Member := ⟨v.name, e.instructions.filter (v.name ∈ ·.writeNames)⟩
    let written := writtenType { ctx with env := k'.types } m
    Finds k t t' written (some type) ∨
      ∃ names p l recent last s, v.name ∈ names ∧ ReachesComponent ctx false fuel t names p ∧
        Trail ctx (names.map (.ofName e)) (needsOnePass (openDependencies e) names) p l recent ∧
        l.GivesUp ctx last s ∧ l.progress.env[v.name]? = some type ∧
        ((m ∉ recent ∧ (t.LinkedFrom k → l.changed = true)) ∨ Finds k t t' written none) := by
  intro ctx m written
  obtain ⟨q, hq, ht, rfl, hcompletes, -⟩ := exists_progress_of_inferKernel h he
  have hgrows := inferKernel_grows target fuel true
  have hm : Member.ofName e v.name = m := Member.ofName_of_expand hids he v.name
  have hwritten : written = writtenType { ctx with env := q.env } (.ofName e v.name) := by
    rw [hm]
    exact writtenType_of_completes ctx hcompletes m
  have hx : v.name ∈ openNames e := mem_openNames_of_expand he hv hopen hparam
  have hfind : e.findVariable? v.name = some v := by
    rw [Kernel.findVariable?_eq, Kernel.declarations_of_expand he, ← Kernel.findVariable?_eq]
    exact Kernel.findVariable?_of_mem hnames hv
  have hqtype : q.env[v.name]? = some type := (hcompletes.eq_of_open hfind hopen).symm.trans htype
  obtain ⟨names, p, r, hmem, hreaches, hr, hrq, henv⟩ :=
    settled_of_inferExpanded ctx hgrows ht hq hx
  obtain ⟨hqr, hreads⟩ := henv v.name hmem
  rw [hwritten, ← hm]
  rcases hreaches.confirmed_or_givesUp he ht hr hmem with
    hconfirmed | ⟨l, recent, last, s, htrail, hgivesUp, rfl, hleft⟩
  · refine .inl (((hconfirmed.grows hrq).congr_env hqr hreads).finds he ht (fun hintact => ?_) hqtype)
    exact (steps_of_inferExpanded hq).growsGrounded he ht hintact
  · refine .inr ⟨names, p, l, recent, last, s, hmem, hreaches, htrail, hgivesUp,
      hqr.symm.trans hqtype, hleft.imp_right fun hnothing => ?_⟩
    exact ((hnothing.grows hrq).congr_env hreads).finds he ht

theorem types_consistent_or_givenUp_cyclicKernel :
    ∃ k' t' type, inferKernel .cLike 8 false cyclicKernel absTable = .ok (k', t') ∧
      k'.types["z"]? = some type ∧
      let ctx := inferContext .cLike 7 cyclicKernel
      let m : Member := ⟨"z", cyclicKernel.instructions.filter ("z" ∈ ·.writeNames)⟩
      let written := writtenType { ctx with env := k'.types } m
      Finds cyclicKernel absTable t' written (some type) ∨
        ∃ names p l recent last s, "z" ∈ names ∧
          ReachesComponent ctx false 7 absTable names p ∧
          Trail ctx (names.map (.ofName cyclicKernel))
            (needsOnePass (openDependencies cyclicKernel) names) p l recent ∧
          l.GivesUp ctx last s ∧ l.progress.env["z"]? = some type ∧
          ((m ∉ recent ∧ (absTable.LinkedFrom cyclicKernel → l.changed = true)) ∨
            Finds cyclicKernel absTable t' written none) := by
  have h : inferKernel .cLike 8 false cyclicKernel absTable =
      .ok (typedCyclic, absTable.addFresh "abs" absSingle) :=
    inferKernel_of_complete inferKernel_cyclicKernel
  have htype : typedCyclic.types["z"]? = some .float32 := by decide
  exact ⟨_, _, .float32, h, htype, types_consistent_or_givenUp (e := cyclicKernel)
    (v := ⟨"z", .unknown, .temporary⟩) (by decide) (by decide) h rfl (by decide) rfl (by decide)
    htype⟩

/-- The component is given up after `y` has become a single and before `x` is visited again, which
therefore stays a small integer. -/
theorem eagerKernel_inconsistent :
    let k := eagerKernel "frobnicate"
    ∃ k' t' s, inferKernel .cLike 9 false k Table.empty.beginEdit.1 = .ok (k', t') ∧
      k'.types["x"]? = some (.scalar .int8) ∧
      attempt (writtenType ⟨.cLike, k, k'.types, inferKernel .cLike 8 true⟩
        ⟨"x", k.instructions.filter ("x" ∈ ·.writeNames)⟩) t' = .ok (some .float32, s) := by
  intro k
  exact exists_of_typesAfter (by cbv)

end KernelTyping
