import KernelTyping.Proofs.Evaluation.Universe
import KernelTyping.Proofs.Inference.Fuel
import KernelTyping.Proofs.Inference.Loop
import KernelTyping.Proofs.Inference.Soundness
import Mathlib.Data.Set.Finite.List
import Mathlib.Data.Set.Finite.Powerset

/-!
# KernelTyping.Proofs.Inference.Divergence — when inference does not come to an end

In a kernel without calls only finitely many types can be found, and the loop of a component stays
among finitely many states (`finite_within`).  So inference goes on for ever exactly if one of the
loops comes back to where it was (`inferKernel_exhausts_iff`).  This happens: types can go round a
cycle of variables (`oscillatingKernel_exhausts`).
-/

namespace KernelTyping

open Evaluation

/-- No expression of the kernel contains a call. -/
def Kernel.CallFree (k : Kernel) : Prop :=
  ∀ i ∈ k.instructions, ∀ x ∈ i.expressions, x.calls = []

namespace Inference

variable {ctx : Context}

/-! ### Instructions without calls -/

/-- No call is evaluated at the instruction. -/
def Silent (i : Instruction) : Prop :=
  ∀ value, i.value? = some value → ∀ callee, ¬value.Mentions callee

theorem silent_of_callFree {k : Kernel} (hk : k.CallFree) {i : Instruction}
    (hi : i ∈ k.instructions) : Silent i := by
  rintro value hvalue callee ⟨d, hd, hcallee⟩
  have hmem : value ∈ i.expressions := by simp [Instruction.expressions, hvalue]
  have hcall : d ∈ value.calls := by
    refine Expr.mem_calls.2 ⟨hd, ?_⟩
    cases d <;> first | rfl | cases hcallee
  rw [hk i hi value hmem] at hcall
  cases hcall

variable {i : Instruction} (hi : Silent i)

include hi

theorem Silent.not_visits {value : Expr} (hvalue : i.value? = some value) {tuple : Bool}
    {callee : Callee} {args : List Expr} {keywords : List (String × Expr)} :
    ¬VisitsValue tuple value (.call callee args keywords) :=
  fun h => hi value hvalue callee (h.mentions (Expr.mentions_call ..))

theorem relatedAt_quiet : RelatedAt Quiet ctx ctx i where
  eval hvalue := quiet_eval fun _ _ _ h => hi.not_visits hvalue (.single h)
  evalTuple hvalue := quiet_evalTuple fun _ _ _ h => hi.not_visits hvalue h

variable (ctx) in
/-- Without calls it does not matter what would be inferred on other kernels. -/
theorem relatedAt_infer (infer : Inference) :
    RelatedAt (fun _ x y => x = y) { ctx with infer } ctx i where
  eval hvalue := by
    refine compatible_eq.eval ?_ _ (fun name _ => ?_) fun _ _ _ _ h => ?_
    · rfl
    · rfl
    · exact absurd (.single h) (hi.not_visits hvalue)
  evalTuple hvalue := by
    refine compatible_eq.evalTuple ?_ _ (fun name _ => ?_) fun _ _ _ _ h => ?_
    · rfl
    · rfl
    · exact absurd h (hi.not_visits hvalue)

omit hi

/-! ### Attempts without calls -/

/-- The writers of a member call nothing. -/
def Member.Silent (m : Member) : Prop := ∀ i ∈ m.writers, Inference.Silent i

variable (ctx) in
theorem quiet_writtenType {m : Member} (hm : m.Silent) :
    Quiet _ (writtenType ctx m) (writtenType ctx m) :=
  compatible_quiet.writtenType fun i hi => relatedAt_quiet (hm i hi)

variable (ctx) in
theorem quiet_visit (hi : Silent i) : Quiet _ (visit ctx i) (visit ctx i) :=
  compatible_quiet.visit (relatedAt_quiet hi)

section Attempts

variable {α : Type} {x : Eval (Option α)} {p : Progress}

theorem attempt_ne_exhausted (hx : Quiet _ x x) (t : Table) :
    attempt x t ≠ .error .exhausted := by
  have hends := (hx.2 (.start t)).1
  rw [attempt_eq]
  match exec x (.start t), hends with
  | (.ok _, _), _ => exact nofun
  | (.error .exhausted, _), hends => exact absurd rfl hends
  | (.error (.fault f), _), _ =>
    dsimp only
    split <;> exact nofun

/-- An attempt without calls leaves nothing to record. -/
theorem record_attempt (hx : Quiet _ x x) {found : Option α} {s : State}
    (h : attempt x p.table = .ok (found, s)) : p.record s = p := by
  obtain ⟨-, htable, hrenames⟩ := hx.2 (.start p.table)
  rw [snd_of_attempt h] at htable hrenames
  rw [Progress.record, htable, hrenames]
  rfl

end Attempts

/-! ### Types that a member can get -/

theorem writerType_mem {U : ElementType → Prop} (hU : ElementType.Closed U) {name : String}
    (h : ∀ tuple value, i.value? = some value → Supplies U ctx (VisitsValue tuple value))
    {s s' : State} {t : ElementType}
    (hexec : exec (writerType ctx name i) s = (.ok (some t), s')) : U t := by
  have hsingle {value : Expr} (hvalue : i.value? = some value) {s s' : State}
      (hexec : exec (eval ctx value) s = (.ok (some t), s')) : U t :=
    eval_mem hU value ((h false value hvalue).mono fun _ => .single) hexec
  unfold writerType at hexec
  split at hexec
  case h_1 target value hi => exact hsingle (by simp [Instruction.value?, hi]) hexec
  case h_2 targets value hi =>
    have hvalue : i.value? = some value := by simp [Instruction.value?, hi]
    split at hexec
    · obtain ⟨assigned, m, hassigned, hexec⟩ := exec_bind_eq_ok.1 hexec
      have hfound := eq_of_exec_pure hexec
      obtain ⟨pairs, rfl, hpairs⟩ := Option.bind_eq_some_iff.1 hfound
      obtain ⟨pair, hpair, rfl⟩ := Option.map_eq_some_iff.1 hpairs
      obtain ⟨types, r, htypes, hassigned⟩ := exec_bind_eq_ok.1 hassigned
      cases types with
      | none => cases eq_of_exec_pure hassigned
      | some types =>
        dsimp only at hassigned
        split at hassigned
        · obtain rfl := Option.some.inj (eq_of_exec_pure hassigned)
          have hmem := List.mem_of_find?_eq_some hpair
          exact evalTuple_mem hU value (h true value hvalue) htypes _
            (List.of_mem_zip (show (pair.1, pair.2) ∈ _ from hmem)).2
        · cases hassigned
    · exact hsingle hvalue hexec
  all_goals cases eq_of_exec_pure hexec

theorem writtenType_mem {U : ElementType → Prop} (hU : ElementType.Closed U) {m : Member}
    (h : ∀ i ∈ m.writers, ∀ tuple value, i.value? = some value →
      Supplies U ctx (VisitsValue tuple value)) {s s' : State} {t : ElementType}
    (hexec : exec (writtenType ctx m) s = (.ok (some t), s')) : U t := by
  obtain ⟨types, r, htypes, hexec⟩ := exec_bind_eq_ok.1 hexec
  have htypes := mapM_mem (fun i hi _ _ _ hexec => writerType_mem hU (h i hi) hexec) htypes
  exact hU.combine htypes (eq_ok_of_exec_lift hexec)

/-! ### Finitely many states -/

/-- What a node that is visited can give of its own. -/
def leafType (ctx : Context) : Expr → ElementType
  | .var name => ((ctx.kernel.symbol? ctx.target name).map (·.type)).getD .truth
  | .cast type _ => type
  | _ => .truth

/-- The types that can be found for the variables of a kernel come from these. -/
def sources (ctx : Context) (E : Env) : Set ElementType :=
  {ctx.kernel.indexType} ∪ {t | ∃ name : String, E[name]? = some t} ∪
    {t | ∃ v ∈ ctx.kernel.declarations, v.dtype.known? = some t} ∪
    ⋃ i ∈ {i | i ∈ ctx.kernel.instructions}, ⋃ value ∈ {value | value ∈ i.value?.toList},
      ⋃ tuple ∈ {tuple | tuple ∈ [true, false]}, leafType ctx '' {d | VisitsValue tuple value d}

theorem finite_sources (ctx : Context) (E : Env) : (sources ctx E).Finite := by
  refine (((Set.finite_singleton _).union ?_).union ?_).union ?_
  · refine (List.finite_toSet (E.toList.map (·.2))).subset ?_
    rintro t ⟨name, ht⟩
    exact List.mem_map.2 ⟨(name, t), Std.ExtTreeMap.mem_toList_iff_getElem?_eq_some.2 ht, rfl⟩
  · refine (List.finite_toSet (ctx.kernel.declarations.filterMap (·.dtype.known?))).subset ?_
    rintro t ⟨v, hv, ht⟩
    exact List.mem_filterMap.2 ⟨v, hv, ht⟩
  · exact (List.finite_toSet _).biUnion fun i _ => (List.finite_toSet _).biUnion fun value _ =>
      (List.finite_toSet _).biUnion fun tuple _ => (finite_visitsValue tuple value).image _

theorem supplies_sources (hk : ctx.kernel.CallFree) {E E' : Env}
    (hE : ∀ (name : String) type, E'[name]? = some type → ElementType.Parts (sources ctx E) type)
    {i : Instruction} (hi : i ∈ ctx.kernel.instructions) (tuple : Bool) {value : Expr}
    (hvalue : i.value? = some value) :
    Supplies (ElementType.Parts (sources ctx E)) { ctx with env := E' }
      (VisitsValue tuple value) := by
  have hsource {t : ElementType} (ht : t ∈ sources ctx E) : ElementType.Parts (sources ctx E) t :=
    .inr ⟨t, ht, .self⟩
  have hleaf {d : Expr} (hd : VisitsValue tuple value d) : leafType ctx d ∈ sources ctx E := by
    refine .inr (Set.mem_biUnion (show i ∈ {i | i ∈ ctx.kernel.instructions} from hi) ?_)
    refine Set.mem_biUnion (show value ∈ {value | value ∈ i.value?.toList} by simp [hvalue]) ?_
    exact Set.mem_biUnion (show tuple ∈ {tuple | tuple ∈ [true, false]} by simp) ⟨d, hd, rfl⟩
  refine ⟨?_, fun {name symbol} hname hsymbol => ?_, fun hfound => hE _ _ hfound, ?_, ?_, ?_⟩
  · exact hsource (.inl (.inl (.inl rfl)))
  · have hsymbol : ctx.kernel.symbol? ctx.target name = some symbol := hsymbol
    have hmem := hleaf hname
    rw [leafType, hsymbol] at hmem
    exact hsource hmem
  · intro name v type hv htype
    rw [Kernel.findVariable?_eq] at hv
    exact hsource (.inl (.inr ⟨v, List.mem_of_find?_eq_some hv, htype⟩))
  · exact fun hcast => hsource (hleaf hcast)
  · exact (silent_of_callFree hk hi).not_visits hvalue

namespace Loop

variable {members : List Member} {onePass complete : Bool} {U : ElementType → Prop}
  {p : Progress} {l r : Loop}

/-- Where the loop of these members can stand, if it starts from `p` and finds types of a set. -/
structure Within (U : ElementType → Prop) (members : List Member) (p : Progress) (l : Loop) :
    Prop where
  queue : l.queue ⊆ members
  length : l.queue.length ≤ members.length
  failed : ∀ name ∈ l.failed, ∃ m ∈ members, m.name = name
  table : l.progress.table = p.table
  renames : l.progress.renames = p.renames
  env {name : String} :
    (∀ m ∈ members, m.name ≠ name) → l.progress.env[name]? = p.env[name]?
  types {name : String} {type : ElementType} : l.progress.env[name]? = some type → U type

theorem within_start (hp : ∀ (name : String) type, p.env[name]? = some type → U type) :
    Within U members p (.start members p) where
  queue := List.Subset.refl _
  length := le_rfl
  failed := by simp [start]
  table := rfl
  renames := rfl
  env _ := rfl
  types h := hp _ _ h

/-- A turn stays there. -/
theorem Within.turn (hsilent : ∀ m ∈ members, m.Silent)
    (hmem : ∀ (E : Env), (∀ (name : String) type, E[name]? = some type → U type) →
      ∀ m ∈ members, ∀ (s s' : State) t,
        exec (writtenType { ctx with env := E } m) s = (.ok (some t), s') → U t)
    (hl : Within U members p l)
    (h : Loop.turn ctx members onePass complete l = .ok (.inl r)) : Within U members p r := by
  obtain ⟨queue, failed, changed, q⟩ := l
  cases queue with
  | nil =>
    dsimp only [Loop.turn] at h
    split at h
    · obtain rfl := Sum.inl.inj (Except.ok.inj h)
      exact ⟨List.Subset.refl _, le_rfl, hl.failed, hl.table, hl.renames, hl.env, hl.types⟩
    · cases h
  | cons m queue =>
    obtain ⟨hm, hqueue⟩ := List.cons_subset.1 hl.queue
    have hlength : queue.length < members.length := hl.length
    obtain ⟨⟨found, s⟩, hattempt, h⟩ := bind_eq_ok.1 h
    have hrecord := record_attempt (quiet_writtenType _ (hsilent m hm)) hattempt
    cases found with
    | some type =>
      dsimp only at h hrecord
      rw [hrecord] at h
      split at h
      · obtain rfl := Sum.inl.inj (Except.ok.inj h)
        exact ⟨hqueue, hlength.le, hl.failed, hl.table, hl.renames, hl.env, hl.types⟩
      · obtain rfl := Sum.inl.inj (Except.ok.inj h)
        refine ⟨hqueue, hlength.le, by simp, hl.table, hl.renames, fun {name} hname => ?_,
          fun {name t} htype => ?_⟩
        · rw [Std.ExtTreeMap.getElem?_insert]
          simpa [hname m hm] using hl.env hname
        · rw [Std.ExtTreeMap.getElem?_insert] at htype
          split at htype
          · rw [← Option.some.inj htype]
            exact hmem q.env (fun _ _ h => hl.types h) m hm _ _ _ (attempt_eq_some.1 hattempt)
          · exact hl.types htype
    | none =>
      dsimp only at h
      split at h
      · split at h <;> cases h
      · obtain rfl := Sum.inl.inj (Except.ok.inj h)
        refine ⟨List.append_subset.2 ⟨hqueue, by simpa using hm⟩,
          by rw [List.length_append]; exact hlength, fun name hname => ?_, hl.table, hl.renames,
          hl.env, hl.types⟩
        rcases Std.ExtTreeSet.mem_insert.1 hname with heq | hname
        · exact ⟨m, hm, Std.LawfulEqOrd.eq_of_compare heq⟩
        · exact hl.failed name hname

/-- There are only finitely many states. -/
theorem finite_within (hU : {t | U t}.Finite) : {l | Within U members p l}.Finite := by
  have hmembers : Finite {m // m ∈ members} := (List.finite_toSet members).to_subtype
  have hqueues : {q : List Member | q ⊆ members ∧ q.length ≤ members.length}.Finite := by
    refine ((List.finite_length_le {m // m ∈ members} members.length).image
      (List.map Subtype.val)).subset ?_
    rintro q ⟨hq, hlength⟩
    exact ⟨q.attachWith (· ∈ members) fun m hm => hq hm, by simpa using hlength, by simp⟩
  have hfailed : {names : Set String | names ⊆ {x | x ∈ members.map (·.name)}}.Finite :=
    (List.finite_toSet _).finite_subsets
  have htypes : {f : {m // m ∈ members} → Option ElementType |
      ∀ m, f m ∈ insert none (some '' {t | U t})}.Finite :=
    Set.Finite.pi' fun _ => (hU.image some).insert none
  refine Set.Finite.of_injOn (f := fun l : Loop => (l.queue, {x | x ∈ l.failed}, l.changed,
      fun m : {m // m ∈ members} => l.progress.env[m.1.name]?))
    ?_ ?_ (hqueues.prod (hfailed.prod (Set.finite_univ.prod htypes)))
  · intro l hl
    refine ⟨⟨hl.queue, hl.length⟩, fun x hx => ?_, trivial, fun m => ?_⟩
    · obtain ⟨m, hm, rfl⟩ := hl.failed x hx
      exact List.mem_map_of_mem hm
    · dsimp only
      cases htype : l.progress.env[m.1.name]? with
      | none => exact .inl rfl
      | some type => exact .inr ⟨type, hl.types htype, rfl⟩
  · rintro ⟨queue, failed, changed, env, table, renames⟩ hl
      ⟨queue', failed', changed', env', table', renames'⟩ hr heq
    obtain ⟨rfl, heq⟩ := Prod.mk.inj heq
    obtain ⟨hfailed, heq⟩ := Prod.mk.inj heq
    obtain ⟨rfl, htypes⟩ := Prod.mk.inj heq
    obtain rfl : failed = failed' := Std.ExtTreeSet.ext_mem fun x => Set.ext_iff.1 hfailed x
    obtain rfl : table = table' := hl.table.trans hr.table.symm
    obtain rfl : renames = renames' := hl.renames.trans hr.renames.symm
    obtain rfl : env = env' := Std.ExtTreeMap.ext_getElem? fun name => by
      by_cases hname : ∃ m ∈ members, m.name = name
      · obtain ⟨m, hm, rfl⟩ := hname
        exact congrFun htypes ⟨m, hm⟩
      · have hname : ∀ m ∈ members, m.name ≠ name := fun m hm h => hname ⟨m, hm, h⟩
        exact (hl.env hname).trans (hr.env hname).symm
    rfl

/-- What stays there during the whole loop. -/
theorem within_after {l₀ : Loop} (hl₀ : Within U members p l₀)
    (hturn : ∀ l r, Within U members p l → turn ctx members onePass complete l = .ok (.inl r) →
      Within U members p r) {n : Nat} (h : after ctx members onePass complete n l₀ = some r) :
    Within U members p r := by
  induction n generalizing l₀ with
  | zero => exact Option.some.inj h ▸ hl₀
  | succ n ih =>
    rw [after] at h
    split at h
    case h_1 next hnext => exact ih (hturn _ _ hl₀ hnext) h
    case h_2 => cases h
    case h_3 => cases h

theorem turn_ne_exhausted (hsilent : ∀ m ∈ members, m.Silent) (hl : Within U members p l) :
    turn ctx members onePass complete l ≠ .error .exhausted := by
  obtain ⟨queue, failed, changed, q⟩ := l
  cases queue with
  | nil =>
    dsimp only [turn]
    split <;> exact nofun
  | cons m queue =>
    have hends := attempt_ne_exhausted (quiet_writtenType { ctx with env := q.env }
      (hsilent m (List.cons_subset.1 hl.queue).1)) q.table
    dsimp only [turn]
    cases hattempt : attempt (writtenType { ctx with env := q.env } m) q.table with
    | error e =>
      intro h
      rw [hattempt, Except.error.inj h] at hends
      exact hends rfl
    | ok found =>
      obtain ⟨found, s⟩ := found
      rw [ok_bind]
      cases found with
      | some type =>
        dsimp only
        split <;> exact nofun
      | none =>
        dsimp only
        split
        · split <;> exact nofun
        · exact nofun

/-- Without calls, the loop goes on for ever exactly if it comes back to where it was. -/
theorem exhausts_iff_recurs_of_callFree (hk : ctx.kernel.CallFree)
    (hwriters : WritersIn ctx.kernel members) (p : Progress) :
    (∀ fuel, run ctx members onePass complete fuel (.start members p) = .error .exhausted) ↔
      Recurs ctx members onePass complete (.start members p) := by
  have hsilent : ∀ m ∈ members, m.Silent := fun m hm i hi =>
    silent_of_callFree hk (hwriters m hm i hi)
  have hmem (E : Env)
      (hE : ∀ (name : String) type, E[name]? = some type →
        ElementType.Parts (sources ctx p.env) type) :
      ∀ m ∈ members, ∀ (s s' : State) t,
        exec (writtenType { ctx with env := E } m) s = (.ok (some t), s') →
          ElementType.Parts (sources ctx p.env) t :=
    fun m hm s s' t => writtenType_mem (ElementType.closed_parts _) fun i hi tuple value hvalue =>
      supplies_sources hk hE (hwriters m hm i hi) tuple hvalue
  have hstart : Within (ElementType.Parts (sources ctx p.env)) members p (.start members p) :=
    within_start fun name type h => .inr ⟨type, .inl (.inl (.inr ⟨name, h⟩)), .self⟩
  exact exhausts_iff_recurs
    (finite_within (ElementType.finite_closure (finite_sources ctx p.env)))
    (fun r hr => turn_ne_exhausted hsilent hr)
    fun n r => within_after hstart fun l r hl => hl.turn hsilent hmem

end Loop

/-! ### Components -/

/-- The loop of a component comes back to a state in which it was before. -/
def ComponentRecurs (ctx : Context) (d : Dependencies) (complete : Bool) (p : Progress)
    (names : List String) : Prop :=
  Loop.Recurs ctx (names.map (.ofName ctx.kernel)) (needsOnePass d names) complete
    (.start (names.map (.ofName ctx.kernel)) p)

variable {d : Dependencies} {complete : Bool}

section Sequences

variable {α : Type} {f : Nat → Progress → α → Outcome Progress}
  (hf : ∀ fuel fuel' p x, f fuel p x ≠ .error .exhausted → fuel ≤ fuel' →
    f fuel' p x = f fuel p x)

include hf

/-- A sequence that comes to an end does so with more fuel as well. -/
theorem foldlM_of_le {fuel fuel' : Nat} {xs : List α} {p : Progress}
    (h : xs.foldlM (f fuel) p ≠ .error .exhausted) (hle : fuel ≤ fuel') :
    xs.foldlM (f fuel') p = xs.foldlM (f fuel) p :=
  Outcome.AnsweredBy.foldlM (fun p x _ hx => hf fuel fuel' p x hx hle) p h

/-- A sequence runs out of any fuel exactly if one of its members does when it is reached. -/
theorem foldlM_exhausts_iff (xs : List α) (p : Progress) :
    (∀ fuel, xs.foldlM (f fuel) p = .error .exhausted) ↔
      ∃ before x after fuel q, xs = before ++ x :: after ∧
        before.foldlM (f fuel) p = .ok q ∧ ∀ fuel, f fuel q x = .error .exhausted := by
  constructor
  · intro h
    induction xs generalizing p with
    | nil => cases h 0
    | cons x xs ih =>
      by_cases hx : ∀ fuel, f fuel p x = .error .exhausted
      · exact ⟨[], x, xs, 0, p, rfl, rfl, hx⟩
      · obtain ⟨fuel, hx⟩ := not_forall.1 hx
        have hfuel := h fuel
        rw [List.foldlM_cons] at hfuel
        cases hq : f fuel p x with
        | error e =>
          rw [hq] at hx hfuel
          exact absurd hfuel hx
        | ok q =>
          have hstep {fuel' : Nat} (hle : fuel ≤ fuel') : f fuel' p x = .ok q :=
            (hf fuel fuel' p x hx hle).trans hq
          obtain ⟨before, y, after, fuel', r, rfl, hr, hy⟩ := ih q fun fuel' => by
            by_contra hends
            have hmax := h (max fuel fuel')
            rw [List.foldlM_cons, hstep (le_max_left _ _), ok_bind,
              foldlM_of_le hf hends (le_max_right _ _)] at hmax
            exact hends hmax
          refine ⟨x :: before, y, after, max fuel fuel', r, rfl, ?_, hy⟩
          rw [List.foldlM_cons, hstep (le_max_left _ _), ok_bind,
            foldlM_of_le hf (by rw [hr]; exact nofun) (le_max_right _ _), hr]
  · rintro ⟨before, x, after, fuel, q, rfl, hq, hx⟩ fuel'
    rw [List.foldlM_append]
    by_cases hends : before.foldlM (f fuel') p = .error .exhausted
    · rw [hends]
      rfl
    · have hq' : before.foldlM (f fuel') p = .ok q := by
        rw [← foldlM_of_le hf hends (le_max_right fuel fuel'),
          foldlM_of_le hf (by rw [hq]; exact nofun) (le_max_left fuel fuel'), hq]
      rw [hq', ok_bind, List.foldlM_cons, hx]
      rfl

end Sequences

/-! ### Inference on a kernel -/

variable (ctx) in
theorem writtenType_infer {m : Member} (hm : m.Silent) (infer : Inference) :
    writtenType { ctx with infer } m = writtenType ctx m :=
  compatible_eq.writtenType fun i hi => relatedAt_infer ctx (hm i hi) infer

theorem silent_ofName {k : Kernel} (hk : k.CallFree) (names : List String) :
    ∀ m ∈ names.map (Member.ofName k), m.Silent :=
  fun m hm i hi => silent_of_callFree hk (writersIn_ofName k names m hm i hi)

variable (ctx) in
/-- Without calls it does not matter what would be inferred on other kernels. -/
theorem inferExpanded_infer (hk : ctx.kernel.CallFree) (infer : Inference) (fuel : Nat)
    (t : Table) :
    inferExpanded { ctx with infer } complete fuel t = inferExpanded ctx complete fuel t := by
  unfold inferExpanded
  dsimp only
  have hsettle (d : Dependencies) :
      settleComponent { ctx with infer } d complete fuel = settleComponent ctx d complete fuel :=
    funext fun p => funext fun names => settle_congr ctx { ctx with infer } rfl
      (fun m hm env => writtenType_infer { ctx with env } (silent_ofName hk names m hm) infer)
      (List.Subset.refl _) ∅ false p
  rw [hsettle]
  refine bind_congr fun p => foldlM_congr (fun i hi => resolveCalls_congr ctx _ fun env => ?_) p
  exact compatible_eq.visit (relatedAt_infer { ctx with env }
    (silent_of_callFree hk (List.mem_filter.1 hi).1) infer)

/-- Without calls the last visits come to an end. -/
theorem foldlM_resolveCalls_ne_exhausted (hk : ctx.kernel.CallFree) {is : List Instruction}
    (his : is ⊆ ctx.kernel.instructions) (p : Progress) :
    is.foldlM (resolveCalls ctx) p ≠ .error .exhausted := by
  induction is generalizing p with
  | nil => exact nofun
  | cons i is ih =>
    obtain ⟨hi, his⟩ := List.cons_subset.1 his
    rw [List.foldlM_cons]
    have hends := attempt_ne_exhausted (quiet_visit { ctx with env := p.env }
      (silent_of_callFree hk hi)) p.table
    unfold resolveCalls
    cases hattempt : attempt (visit { ctx with env := p.env } i) p.table with
    | error e =>
      intro h
      rw [hattempt, Except.error.inj h] at hends
      exact hends rfl
    | ok found =>
      obtain ⟨found, s⟩ := found
      cases found with
      | none => exact ih his p
      | some _ => exact ih his (p.record s)

/-- A component comes back to where it was when it is reached. -/
def RecursFrom (ctx : Context) (complete : Bool) (t : Table) : Prop :=
  ∃ before names after fuel p, openComponents ctx.kernel = before ++ names :: after ∧
    before.foldlM (settleComponent ctx (openDependencies ctx.kernel) complete fuel)
      ⟨startEnv ctx.kernel, t, .empty⟩ = .ok p ∧
    ComponentRecurs ctx (openDependencies ctx.kernel) complete p names

theorem inferExpanded_exhausts_iff (hk : ctx.kernel.CallFree) (t : Table) :
    (∀ fuel, inferExpanded ctx complete fuel t = .error .exhausted) ↔
      RecursFrom ctx complete t := by
  have hrecurs (names : List String) (p : Progress) :
      (∀ fuel, settleComponent ctx (openDependencies ctx.kernel) complete fuel p names =
        .error .exhausted) ↔
      ComponentRecurs ctx (openDependencies ctx.kernel) complete p names :=
    Loop.exhausts_iff_recurs_of_callFree hk (writersIn_ofName _ names) p
  have hfold (fuel : Nat) : inferExpanded ctx complete fuel t = .error .exhausted ↔
      (openComponents ctx.kernel).foldlM
        (settleComponent ctx (openDependencies ctx.kernel) complete fuel)
        ⟨startEnv ctx.kernel, t, .empty⟩ = .error .exhausted := by
    have heq : inferExpanded ctx complete fuel t = (openComponents ctx.kernel).foldlM
        (settleComponent ctx (openDependencies ctx.kernel) complete fuel)
        ⟨startEnv ctx.kernel, t, .empty⟩ >>=
          (ctx.kernel.instructions.filter (!·.isDataOblivious)).foldlM (resolveCalls ctx) := rfl
    rw [heq]
    cases (openComponents ctx.kernel).foldlM
        (settleComponent ctx (openDependencies ctx.kernel) complete fuel)
        ⟨startEnv ctx.kernel, t, .empty⟩ with
    | error e =>
      constructor
      · exact fun h => congrArg _ (Except.error.inj h)
      · exact fun h => congrArg _ (Except.error.inj h)
    | ok p =>
      exact iff_of_false (foldlM_resolveCalls_ne_exhausted hk (List.filter_subset_self _) p) nofun
  have hmono : ∀ fuel fuel' p names,
      settleComponent ctx (openDependencies ctx.kernel) complete fuel p names ≠ .error .exhausted →
      fuel ≤ fuel' → settleComponent ctx (openDependencies ctx.kernel) complete fuel' p names =
        settleComponent ctx (openDependencies ctx.kernel) complete fuel p names :=
    settleComponent_of_le
  have hseq := foldlM_exhausts_iff hmono (openComponents ctx.kernel)
    ⟨startEnv ctx.kernel, t, .empty⟩
  simp only [hrecurs] at hseq
  exact (forall_congr' hfold).trans hseq

/-- Without calls, inference on a kernel runs out of fuel as it does on the expanded kernel. -/
theorem forall_exhausts_iff {target : Target} {k e : Kernel} {t : Table} (he : k.expand = .ok e)
    (hfree : e.CallFree) (ht : t.isEditing = true) :
    (∀ fuel, inferKernel target fuel complete k t = .error .exhausted) ↔
      ∀ fuel, inferExpanded ⟨target, e, startEnv e, inferKernel target 0 true⟩ complete fuel t =
        .error .exhausted := by
  have hinfer (fuel : Nat) : inferKernel target (fuel + 1) complete k t = .error .exhausted ↔
      inferExpanded ⟨target, e, startEnv e, inferKernel target 0 true⟩ complete fuel t =
        .error .exhausted := by
    have heq : inferKernel target (fuel + 1) complete k t =
        inferExpanded ⟨target, e, startEnv e, inferKernel target fuel true⟩ complete fuel t >>=
          fun p => liftM (finishKernel complete k p) := by
      rw [inferKernel, inferWith, ht, he]
      rfl
    rw [heq, inferExpanded_infer
      ⟨target, e, startEnv e, inferKernel target 0 true⟩ hfree]
    cases inferExpanded ⟨target, e, startEnv e, inferKernel target 0 true⟩ complete fuel t with
    | error halt =>
      constructor
      · exact fun h => congrArg _ (Except.error.inj h)
      · exact fun h => congrArg _ (Except.error.inj h)
    | ok p =>
      refine iff_of_false ?_ (by simp)
      rw [ok_bind]
      cases finishKernel complete k p <;> simp
  refine ⟨fun h fuel => (hinfer fuel).1 (h (fuel + 1)), fun h fuel => ?_⟩
  cases fuel with
  | zero => rfl
  | succ fuel => exact (hinfer fuel).2 (h fuel)

end Inference

open Inference

/-- **When inference on a kernel without calls comes to an end.**  Inside a transaction, whatever
the variables, dependencies and rules, it runs out of any fuel exactly if the loop of one of its
components, when it is reached, comes back to a state in which it was before. -/
theorem inferKernel_exhausts_iff {target : Target} {complete : Bool} {k e : Kernel} {t : Table}
    (he : k.expand = .ok e) (hfree : e.CallFree) (ht : t.isEditing = true) :
    (∀ fuel, inferKernel target fuel complete k t = .error .exhausted) ↔
      RecursFrom ⟨target, e, startEnv e, inferKernel target 0 true⟩ complete t :=
  (forall_exhausts_iff he hfree ht).trans (inferExpanded_exhausts_iff hfree t)

theorem Kernel.callFree_of_all {k : Kernel}
    (h : (k.instructions.all fun i => i.expressions.all (·.calls.isEmpty)) = true) :
    k.CallFree := by
  simpa [Kernel.CallFree] using h

/-- Two variables that are assigned to each other. -/
def settlingKernel : Kernel := { Kernel.empty "k" with
  args := [⟨"f", .known .float32, .input⟩]
  temporaries := [⟨"x", .unknown, .temporary⟩, ⟨"y", .unknown, .temporary⟩]
  instructions := [
    ⟨"x", .assign (.var "x") (.nary .sum [.var "y", .var "f"])⟩,
    ⟨"y", .assign (.var "y") (.var "x")⟩] }

theorem inferKernel_exhausts_iff_settlingKernel :
    ¬RecursFrom ⟨.cLike, settlingKernel, startEnv settlingKernel, inferKernel .cLike 0 true⟩ true
      Table.empty.beginEdit.1 := by
  rw [← inferKernel_exhausts_iff (k := settlingKernel) rfl (Kernel.callFree_of_all (by cbv)) rfl]
  intro h
  obtain ⟨k', t', hok⟩ := exists_of_isOk
    (x := inferKernel .cLike 8 true settlingKernel Table.empty.beginEdit.1) (by cbv)
  cases (h 8).symm.trans hok

/-- Three variables that pass their types on, one of them through a quotient. -/
def oscillatingKernel : Kernel := { Kernel.empty "k" with
  args := [⟨"f", .known .float32, .input⟩, ⟨"n", .known (.scalar .int8), .input⟩]
  temporaries := [⟨"x", .unknown, .temporary⟩, ⟨"y", .unknown, .temporary⟩,
    ⟨"z", .unknown, .temporary⟩]
  instructions := [
    ⟨"x", .assign (.var "x") (.nary .sum [.var "y", .var "f"])⟩,
    ⟨"y", .assign (.var "y") (.binary .quotient (.var "z") (.var "n"))⟩,
    ⟨"z", .assign (.var "z") (.var "x")⟩] }

/-- The loop of its only component after a number of turns. -/
def oscillatingLoop (turns : Nat) : Option Loop :=
  let members := ["x", "y", "z"].map (.ofName oscillatingKernel)
  Loop.after ⟨.cLike, oscillatingKernel, startEnv oscillatingKernel, inferKernel .cLike 0 true⟩
    members false true turns
    (.start members ⟨startEnv oscillatingKernel, Table.empty.beginEdit.1, .empty⟩)

/-- The quotient is a double at first, when nothing is known of `z`.  From then on a single and a
double type go round, by one variable in each pass. -/
theorem oscillatingKernel_recurs :
    RecursFrom ⟨.cLike, oscillatingKernel, startEnv oscillatingKernel, inferKernel .cLike 0 true⟩
      true Table.empty.beginEdit.1 := by
  have hcomponents : openComponents oscillatingKernel = [["x", "y", "z"]] := by cbv
  refine ⟨[], ["x", "y", "z"], [], 0, _, hcomponents, rfl, ?_⟩
  have hloop : (oscillatingLoop 4).isSome = true := by cbv
  have hsame : oscillatingLoop 12 = oscillatingLoop 4 := by cbv
  obtain ⟨r, hr⟩ := Option.isSome_iff_exists.1 hloop
  exact ⟨4, 12, r, by decide, hr, hsame.trans hr⟩

/-- Inference need not come to an end, although there is no call. -/
theorem oscillatingKernel_exhausts :
    ¬∃ fuel, inferKernel .cLike fuel true oscillatingKernel Table.empty.beginEdit.1 ≠
      .error .exhausted := by
  have hfree : oscillatingKernel.CallFree := Kernel.callFree_of_all (by cbv)
  rintro ⟨fuel, hends⟩
  exact hends ((forall_exhausts_iff rfl hfree rfl).2
    ((inferExpanded_exhausts_iff hfree _).2 oscillatingKernel_recurs) fuel)

end KernelTyping
