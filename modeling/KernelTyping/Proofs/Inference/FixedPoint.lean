import KernelTyping.Proofs.Inference.Steps

/-!
# KernelTyping.Proofs.Inference.FixedPoint — what holds when a component is settled

A variable is `Confirmed` if its writers assign to it the type that it has.  A pass of `settle` in
which nothing changes confirms all members: each was visited under the types that are there in the
end.  Later components change no type that an earlier one reads, so that at the end of inference
every variable is confirmed (`confirmed_of_inferExpanded`).
-/

namespace KernelTyping.Inference

open Evaluation

/-- The writers of a variable assign to it the type that it has, for some table between `t` and
`u`. -/
def Confirmed (ctx : Context) (env : Env) (t u : Table) (m : Member) : Prop :=
  ∃ type T s, env[m.name]? = some type ∧ t.Grows T ∧
    attempt (writtenType { ctx with env := env } m) T = .ok (some type, s) ∧ s.table.Grows u

namespace Confirmed

variable {ctx : Context} {env env' : Env} {t u v : Table} {m : Member}

theorem grows (h : Confirmed ctx env t u m) (huv : u.Grows v) : Confirmed ctx env t v m := by
  obtain ⟨type, T, s, htype, hT, hattempt, hs⟩ := h
  exact ⟨type, T, s, htype, hT, hattempt, hs.trans huv⟩

/-- It matters only which types the variable and those that its writers read have. -/
theorem congr_env (h : Confirmed ctx env t u m) (hname : env'[m.name]? = env[m.name]?)
    (hreads : ∀ i ∈ m.writers, ∀ read ∈ i.readNames, env'[read]? = env[read]?) :
    Confirmed ctx env' t u m := by
  obtain ⟨type, T, s, htype, hT, hattempt, hs⟩ := h
  refine ⟨type, T, s, hname.trans htype, hT, ?_, hs⟩
  rw [writtenType_congr_env hreads]
  exact hattempt

end Confirmed

/-! ### One component -/

section Settle

variable {ctx : Context} {members : List Member} {onePass : Bool}

/-- What holds of the members between two visits of a pass: each is still to be visited or is
confirmed, unless a change in this pass will bring another one. -/
def Progressing (ctx : Context) (members queue : List Member) (onePass changed : Bool) (t : Table)
    (p : Progress) : Prop :=
  ∀ m ∈ members, m ∈ queue ∨ (changed = true ∧ onePass = false) ∨
    Confirmed ctx p.env t p.table m

/-- A lone variable that none of its writers reads needs one pass only. -/
def Alone (members : List Member) : Prop :=
  ∃ m, members = [m] ∧ ∀ i ∈ m.writers, m.name ∉ i.readNames

/-- If a component is settled, with a fault for what stays open, all its members are confirmed. -/
theorem confirmed_of_settling (hinfer : GrowsTable ctx.infer)
    (hone : onePass = true → Alone members) {t : Table} {fuel : Nat} {queue : List Member}
    {failed : NameSet} {changed : Bool} {p q : Progress}
    (h : Settling ctx members onePass true q fuel queue failed changed p)
    (hqueue : queue ⊆ members) (hp : p.Sound) (hgrows : t.Grows p.table)
    (hprogressing : Progressing ctx members queue onePass changed t p) :
    ∀ m ∈ members, Confirmed ctx q.env t q.table m := by
  -- a visit that finds a type confirms the member under the types before it
  have hvisited {p : Progress} {m : Member} {type : ElementType} {s : State} {env : Env}
      (hgrows : t.Grows p.table)
      (hattempt : attempt (writtenType { ctx with env := p.env } m) p.table = .ok (some type, s))
      (hname : env[m.name]? = some type)
      (hreads : ∀ i ∈ m.writers, ∀ read ∈ i.readNames, env[read]? = p.env[read]?) :
      Confirmed ctx env t s.table m := by
    refine ⟨type, p.table, s, hname, hgrows, ?_, .refl _⟩
    rw [writtenType_congr_env hreads]
    exact hattempt
  induction h with
  | again _ _ ih => exact ih (List.Subset.refl members) hp hgrows fun m hm => .inl hm
  | done hchanged =>
    intro m hm
    rcases hprogressing m hm with hm | ⟨rfl, honePass⟩ | hm
    · cases hm
    · rw [hchanged rfl] at honePass
      cases honePass
    · exact hm
  | @confirm _ m _ _ _ p _ _ hattempt henv _ ih =>
    obtain ⟨hm, hqueue⟩ := List.cons_subset.1 hqueue
    obtain ⟨hgrows', hsound⟩ := ((Steps.refl p).assign hm hattempt).grows hinfer hp
    rw [Progress.assign_of_env_eq (p := p) henv] at hsound
    refine ih hqueue hsound (hgrows.trans hgrows') fun other hother => ?_
    rcases hprogressing other hother with hmem | hchange | hconfirmed
    · rcases List.mem_cons.1 hmem with rfl | hmem
      · exact .inr (.inr (hvisited hgrows hattempt henv fun _ _ _ _ => rfl))
      · exact .inl hmem
    · exact .inr (.inl hchange)
    · exact .inr (.inr (hconfirmed.grows hgrows'))
  | @assign _ m _ _ _ p type s hattempt _ _ ih =>
    obtain ⟨hm, hqueue⟩ := List.cons_subset.1 hqueue
    obtain ⟨hgrows', hsound⟩ := ((Steps.refl p).assign hm hattempt).grows hinfer hp
    refine ih hqueue hsound (hgrows.trans hgrows') fun other hother => ?_
    cases honePass : onePass with
    | false => exact .inr (.inl ⟨rfl, rfl⟩)
    | true =>
      obtain ⟨lone, rfl, hreads⟩ := hone honePass
      obtain rfl := List.mem_singleton.1 hm
      obtain rfl := List.mem_singleton.1 hother
      have henv := Progress.getElem?_assign p other.name type s
      refine .inr (.inr (hvisited hgrows hattempt ((henv _).trans (if_pos rfl))
        fun i hi read hread => (henv read).trans (if_neg ?_)))
      rintro rfl
      exact hreads i hi hread
  | @defer _ m _ _ _ _ _ _ _ _ ih =>
    obtain ⟨hm, hqueue⟩ := List.cons_subset.1 hqueue
    refine ih (List.append_subset.2 ⟨hqueue, by simpa using hm⟩) hp hgrows fun other hother => ?_
    refine (hprogressing other hother).imp_left fun hmem => ?_
    rcases List.mem_cons.1 hmem with rfl | hmem
    · simp
    · simp [hmem]
  | giveUp _ _ hcomplete => cases hcomplete

end Settle

/-! ### All components -/

section Components

variable {ctx : Context}

/-- A variable of the kernel depends on the open ones that its writers read. -/
theorem mem_on_ofKernel {k : Kernel} {names : List String} {x y : String} (hx : x ∈ names)
    (hy : y ∈ names) {i : Instruction} (hi : i ∈ k.writers x) (hread : y ∈ i.readNames) :
    y ∈ (Dependencies.ofKernel k names).on x := by
  rw [Dependencies.on_ofKernel, if_pos hx, Dependencies.reads, List.mem_eraseDups, List.mem_filter]
  exact ⟨List.mem_flatMap.2 ⟨i, hi, Std.ExtTreeSet.mem_toList.2 hread⟩, by simpa using hy⟩

variable {names : List String} {fuel : Nat} {t : Table}

theorem confirmed_of_settleComponent (hinfer : GrowsTable ctx.infer) {component : List String}
    (hsub : component ⊆ names) {p q : Progress} (hp : p.Sound) (hgrows : t.Grows p.table)
    (h : settleComponent ctx (.ofKernel ctx.kernel names) true fuel p component = .ok q) :
    ∀ x ∈ component, Confirmed ctx q.env t q.table (.ofName ctx.kernel x) := by
  intro x hx
  refine confirmed_of_settling hinfer (fun hone => ?_) (settle_eq_ok.1 h) (List.Subset.refl _) hp
    hgrows (fun m hm => .inl hm) _ (List.mem_map_of_mem hx)
  split at hone
  case h_1 name =>
    refine ⟨.ofName ctx.kernel name, rfl, fun i hi hread => ?_⟩
    have hname : name ∈ names := hsub (by simp)
    have := mem_on_ofKernel hname hname hi hread
    simp [Dependencies.onItself, this] at hone
  case h_2 => cases hone

/-- As the components come in the order of their dependencies, what is done at later ones changes
neither the type of a variable nor the types that its writers read. -/
theorem env_eq_of_later {before after : List (List String)} {component : List String}
    (hcomponents : Dependencies.ComponentsOf (.ofKernel ctx.kernel names) names
      (before ++ component :: after)) {p q : Progress}
    (hsteps : Steps ctx (after.flatten.map (.ofName ctx.kernel)) p q) {x : String}
    (hx : x ∈ component) :
    q.env[x]? = p.env[x]? ∧
      ∀ i ∈ ctx.kernel.writers x, ∀ read ∈ i.readNames, q.env[read]? = p.env[read]? := by
  have hnames {c : List String} (hc : c ∈ before ++ component :: after) {y : String} (hy : y ∈ c) :
      y ∈ names := (hcomponents.mem y).1 ⟨c, hc, hy⟩
  have henv {y : String} (hy : ∀ c ∈ after, y ∉ c) : q.env[y]? = p.env[y]? := by
    refine hsteps.env_eq (List.forall_mem_map.2 fun z hz => ?_)
    obtain ⟨c, hc, hz⟩ := List.mem_flatten.1 hz
    rintro rfl
    exact hy c hc hz
  refine ⟨henv (hcomponents.disjoint rfl hx), fun i hi read hread => henv ?_⟩
  by_cases hopen : read ∈ names
  · have hdepends := mem_on_ofKernel (hnames (by simp) hx) hopen hi hread
    rcases hcomponents.depends rfl hx hdepends with hread | ⟨b, hb, hread⟩
    · exact hcomponents.disjoint rfl hread
    · intro c hc
      obtain ⟨pre, post, rfl⟩ := List.append_of_mem hb
      have happend : (pre ++ b :: post) ++ component :: after =
          pre ++ b :: (post ++ component :: after) := by simp
      exact hcomponents.disjoint happend hread c (by simp [hc])
  · exact fun c hc hmem => hopen (hnames (by simp [hc]) hmem)

variable (ctx) in
/-- Where the component of an open variable is settled in the course of inference, with what stays
as it is from there on. -/
theorem settled_of_inferExpanded (hinfer : GrowsTable ctx.infer) (hedit : t.isEditing = true)
    {complete : Bool} {q : Progress} (h : inferExpanded ctx complete fuel t = .ok q) {x : String}
    (hx : x ∈ openNames ctx.kernel) :
    ∃ component p r, x ∈ component ∧ ReachesComponent ctx complete fuel t component p ∧
      settleComponent ctx (openDependencies ctx.kernel) complete fuel p component = .ok r ∧
      r.table.Grows q.table ∧ ∀ y ∈ component, q.env[y]? = r.env[y]? ∧
        ∀ i ∈ ctx.kernel.writers y, ∀ read ∈ i.readNames, q.env[read]? = r.env[read]? := by
  obtain ⟨p', hp', hq⟩ := inferExpanded_eq_ok.1 h
  have hcomponents : Dependencies.ComponentsOf (openDependencies ctx.kernel) (openNames ctx.kernel)
      (openComponents ctx.kernel) := componentsOf_ofKernel ctx.kernel (openNames ctx.kernel)
  obtain ⟨component, hcomponent, hx⟩ := (hcomponents.mem x).2 hx
  obtain ⟨before, after, hsplit⟩ := List.append_of_mem hcomponent
  rw [hsplit] at hcomponents hp'
  obtain ⟨p, r, hp, hr, hafter⟩ := foldlM_append_cons_eq_ok.1 hp'
  have hreaches : ReachesComponent ctx complete fuel t component p := ⟨before, after, hsplit, hp⟩
  have hlater : Steps ctx (after.flatten.map (.ofName ctx.kernel)) r q := by
    have hcomponents : Steps ctx (after.flatten.map (.ofName ctx.kernel)) r p' := by
      refine steps_of_foldlM (fun names hnames _ _ h => (steps_of_settleComponent h).mono ?_) hafter
      exact List.map_subset _ fun y hy => List.mem_flatten.2 ⟨names, hnames, hy⟩
    exact hcomponents.trans
      (steps_of_foldlM_resolveCalls (List.filter_subset_self _) hq)
  obtain ⟨-, hsound⟩ := hreaches.grows hinfer hedit
  obtain ⟨-, hsound⟩ := (steps_of_settleComponent hr).grows hinfer hsound
  refine ⟨component, p, r, hx, hreaches, hr, (hlater.grows hinfer hsound).1, fun y hy => ?_⟩
  exact env_eq_of_later hcomponents hlater hy

variable (ctx) in
/-- At the end of inference every open variable has the type that its writers assign to it. -/
theorem confirmed_of_inferExpanded (hinfer : GrowsTable ctx.infer) (hedit : t.isEditing = true)
    {q : Progress} (h : inferExpanded ctx true fuel t = .ok q) :
    ∀ x ∈ openNames ctx.kernel, Confirmed ctx q.env t q.table (.ofName ctx.kernel x) := by
  intro x hx
  obtain ⟨component, p, r, hx, hreaches, hr, hrq, henv⟩ :=
    settled_of_inferExpanded ctx hinfer hedit h hx
  obtain ⟨htp, hsound⟩ := hreaches.grows hinfer hedit
  have hconfirmed := confirmed_of_settleComponent hinfer hreaches.subset hsound htp hr x hx
  exact (hconfirmed.grows hrq).congr_env (henv x hx).1 (henv x hx).2

end Components

end KernelTyping.Inference
