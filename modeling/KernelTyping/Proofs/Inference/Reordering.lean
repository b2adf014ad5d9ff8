import KernelTyping.Proofs.Inference.Fuel
import KernelTyping.Proofs.Inference.Schedule
import KernelTyping.Proofs.Inference.Soundness
import KernelTyping.Proofs.Table.Transactions

/-!
# KernelTyping.Proofs.Inference.Reordering — temporaries in another order

The order in which a kernel lists its temporaries is the order in which the members of a component
are visited, and part of what decides which component comes first.  Inside of a component it
matters: what is seen first can stay (`order_matters`).  Between components it does
not: if temporaries that depend on each other keep their order, inference gives every variable the
same type, or fails on both kernels (`types_reordered`).
-/

namespace KernelTyping

open Evaluation

/-- The matchers of the target do not look at the order in which a kernel lists its temporaries. -/
structure Target.IgnoresOrder (target : Target) : Prop where
  symbol? {matcher name : String} {k : Kernel} {ts : List Variable} : ts.Perm k.temporaries →
    target.symbol? matcher { k with temporaries := ts } name = target.symbol? matcher k name
  overload? {matcher name : String} {k : Kernel} {ts : List Variable} {args : List ElementType} :
    ts.Perm k.temporaries → target.overload? matcher { k with temporaries := ts } name args =
      target.overload? matcher k name args

theorem ignoresOrder_cLike : Target.cLike.IgnoresOrder := ⟨fun _ => rfl, fun _ => rfl⟩

/-- The temporaries of a kernel in another order, in which those that depend on each other, directly
or not, stand as before. -/
structure Kernel.Reorders (k : Kernel) (ts : List Variable) : Prop where
  perm : ts.Perm k.temporaries
  cycles {e : Kernel} : k.expand = .ok e → ∀ {u v : Variable},
    (Inference.openDependencies e).Mutual u.name v.name →
      ([u, v].Sublist ts ↔ [u, v].Sublist k.temporaries)

theorem Kernel.expand_reordered {k e : Kernel} (he : k.expand = .ok e) (ts : List Variable) :
    ({ k with temporaries := ts } : Kernel).expand = .ok { e with temporaries := ts } := by
  obtain ⟨is, his, rfl⟩ := expand_eq_ok.1 he
  exact expand_eq_ok.2 ⟨is, his, rfl⟩

namespace Inference

variable {target : Target} {infer : Inference} {e : Kernel} {ts : List Variable}

/-! ### Evaluation -/

/-- To an evaluation, a kernel looks the same in whatever order the temporaries are listed. -/
theorem looksLike_reordered (htarget : target.IgnoresOrder)
    (hnames : (e.declarations.map (·.name)).Nodup) (hperm : ts.Perm e.temporaries) :
    LooksLike target (fun _ => True) { e with temporaries := ts } e where
  inames := rfl
  params := rfl
  indexType := rfl
  functionMatchers := rfl
  symbol? _ := findSome?_congr fun _ _ => htarget.symbol? hperm
  overload? _ _ _ := htarget.overload? hperm
  findVariable? _ := Kernel.findVariable?_reordered hnames hperm _

/-! ### Components -/

section Components

theorem openNames_eq (k : Kernel) : openNames k =
    ((k.temporaries ++ k.args).filter fun v =>
      !k.params.contains v.name && !v.dtype.isKnown).map (·.name) := by
  rw [openNames, untyped, List.filter_map, List.filter_filter]
  rfl

theorem nodup_openNames {k : Kernel} (hnames : (k.declarations.map (·.name)).Nodup) :
    (openNames k).Nodup := by
  have hperm : (k.temporaries ++ k.args).Perm k.declarations := List.perm_append_comm
  rw [openNames_eq]
  exact ((hperm.map _).nodup_iff.2 hnames).sublist (List.filter_sublist.map _)

variable (hperm : ts.Perm e.temporaries)

include hperm

theorem openNames_reordered :
    (openNames { e with temporaries := ts }).Perm (openNames e) := by
  rw [openNames_eq, openNames_eq]
  exact ((hperm.append_right e.args).filter _).map _

theorem startEnv_reordered : startEnv { e with temporaries := ts } = startEnv e := by
  refine Std.ExtTreeMap.ext_getElem? fun x => ?_
  have hmem (p : String → Bool) :
      x ∈ ((untyped { e with temporaries := ts }).map (·.name)).filter p ↔
        x ∈ ((untyped e).map (·.name)).filter p :=
    ((((hperm.append_right e.args).filter _).map _).filter p).mem_iff
  unfold startEnv
  rw [Dependencies.getElem?_ofList_map fun _ => e.indexType,
    Dependencies.getElem?_ofList_map fun _ => e.indexType]
  simp only [hmem]

theorem openDependencies_reordered :
    openDependencies { e with temporaries := ts } = openDependencies e :=
  Dependencies.ofKernel_perm e (openNames_reordered hperm)

/-- Two open names stand in the same order as the variables do, if these are two temporaries. -/
theorem pair_sublist_openNames {x y : String} (hkept : ∀ u v : Variable, u.name = x → v.name = y →
      [u, v].Sublist ts → [u, v].Sublist e.temporaries)
    (h : [x, y].Sublist (openNames { e with temporaries := ts })) :
    [x, y].Sublist (openNames e) := by
  rw [openNames_eq] at h ⊢
  obtain ⟨vs, hvs, hxy⟩ := List.sublist_map_iff.1 h
  obtain ⟨u, v, rfl, rfl, rfl⟩ : ∃ u v : Variable, vs = [u, v] ∧ u.name = x ∧ v.name = y := by
    match vs, hxy with
    | [u, v], hxy =>
      obtain ⟨hx, hxy⟩ := List.cons.inj hxy
      obtain ⟨hy, -⟩ := List.cons.inj hxy
      exact ⟨u, v, rfl, hx.symm, hy.symm⟩
  have hopen : ∀ w ∈ [u, v], (!e.params.contains w.name && !w.dtype.isKnown) = true :=
    fun w hw => (List.mem_filter.1 (hvs.subset hw)).2
  obtain ⟨us, ws, happend, hus, hws⟩ :=
    List.sublist_append_iff.1 (hvs.trans List.filter_sublist)
  have hpair : [u, v].Sublist (e.temporaries ++ e.args) := by
    rw [happend]
    refine List.Sublist.append ?_ hws
    match us with
    | [] => exact List.nil_sublist _
    | [w] => exact List.singleton_sublist.2 (hperm.mem_iff.1 (List.singleton_sublist.1 hus))
    | w :: w' :: us =>
      obtain ⟨hw, happend⟩ := List.cons.inj happend
      obtain ⟨hw', happend⟩ := List.cons.inj happend
      obtain ⟨rfl, -⟩ := List.append_eq_nil_iff.1 happend.symm
      rw [← hw, ← hw'] at hus ⊢
      exact hkept u v rfl rfl hus
  have hfilter := hpair.filter fun w => !e.params.contains w.name && !w.dtype.isKnown
  rw [List.filter_eq_self.2 hopen] at hfilter
  exact hfilter.map (·.name)

/-- Where temporaries that depend on each other stand as before, the components are the same. -/
theorem mem_openComponents_reordered (hnames : (e.declarations.map (·.name)).Nodup)
    (hcycles : ∀ {u v : Variable}, (openDependencies e).Mutual u.name v.name →
      ([u, v].Sublist ts ↔ [u, v].Sublist e.temporaries)) (c : List String) :
    c ∈ openComponents { e with temporaries := ts } ↔ c ∈ openComponents e := by
  have hopen := openNames_reordered hperm
  have hdependencies : openComponents { e with temporaries := ts } =
      (openDependencies e).components (openNames { e with temporaries := ts }) := by
    rw [← openDependencies_reordered hperm]
    rfl
  have hd (x y : String) (hy : y ∈ (openDependencies e).on x) : y ∈ openNames e :=
    on_ofKernel_subset hy
  have hnodup := nodup_openNames hnames
  rw [hdependencies]
  constructor
  · refine Dependencies.mem_components_of_perm hd hnodup hopen fun x y hmutual h => ?_
    refine pair_sublist_openNames hperm (fun u v hu hv huv => ?_) h
    subst hu hv
    exact (hcycles hmutual).1 huv
  · refine Dependencies.mem_components_of_perm (fun x y hy => hopen.mem_iff.2 (hd x y hy))
      (hopen.nodup_iff.2 hnodup) hopen.symm fun x y hmutual h => ?_
    refine pair_sublist_openNames (e := { e with temporaries := ts }) hperm.symm
      (fun u v hu hv huv => ?_) h
    subst hu hv
    exact (hcycles hmutual).2 huv

end Components

/-! ### Inference on the expanded kernel -/

section Expanded

variable {complete : Bool} {fuel : Nat} {t : Table} {R : String → Prop}

theorem inferExpanded_reordered (htarget : target.IgnoresOrder)
    (hnames : (e.declarations.map (·.name)).Nodup) (hperm : ts.Perm e.temporaries)
    (hcycles : ∀ {u v : Variable}, (openDependencies e).Mutual u.name v.name →
      ([u, v].Sublist ts ↔ [u, v].Sublist e.temporaries))
    (hgrows : GrowsTable infer) (hsame : SameTypes R infer) (honly : InstructionsOnly R e)
    (hlinked : Table.Linked R t) (ht : t.isEditing = true) {p : Progress}
    (hp : inferExpanded ⟨target, e, startEnv e, infer⟩ complete fuel t = .ok p) :
    ∃ q, inferExpanded ⟨target, { e with temporaries := ts },
        startEnv { e with temporaries := ts }, infer⟩ complete fuel t = .ok q ∧ p.Alike R q := by
  let ctx : Context := ⟨target, e, startEnv e, infer⟩
  have hlooks := looksLike_reordered htarget hnames hperm
  obtain ⟨p₁, hp₁, hp⟩ := inferExpanded_eq_ok.1 hp
  have hd : Dependencies.ofKernel { e with temporaries := ts }
      (openNames { e with temporaries := ts }) = openDependencies e :=
    openDependencies_reordered hperm
  -- the components in the order in which the reordered kernel has them
  have hcomponents : Dependencies.ComponentsOf (openDependencies e) (openNames e)
      (openComponents { e with temporaries := ts }) := by
    have hreordered := componentsOf_ofKernel { e with temporaries := ts }
      (openNames { e with temporaries := ts })
    refine ⟨fun x => ?_, hreordered.disjoint, fun hsplit hx hy => ?_⟩
    · rw [← (openNames_reordered hperm).mem_iff]
      exact hreordered.mem x
    · rw [← hd] at hy
      exact hreordered.depends hsplit hx hy
  obtain ⟨q₁, hq₁, halike⟩ := foldlM_schedule ctx hgrows hsame honly hlinked ht
    (componentsOf_ofKernel e (openNames e)) hcomponents
    (mem_openComponents_reordered hperm hnames hcycles) hp₁
  have hresolved : Matches (Progress.Alike R) (.ok p)
      ((e.instructions.filter (!·.isDataOblivious)).foldlM (resolveCalls ctx) q₁) :=
    hp ▸ matches_foldlM (fun i hi p q h =>
      resolveCalls_matches hgrows hsame honly (List.mem_filter.1 hi).1 h) halike
  obtain ⟨q, hq, halike⟩ := hresolved.exists_of_ok
  refine ⟨q, inferExpanded_eq_ok.2 ⟨q₁, ?_, ?_⟩, halike⟩
  · show (openComponents { e with temporaries := ts }).foldlM _
      (⟨startEnv { e with temporaries := ts }, t, .empty⟩ : Progress) = _
    rw [startEnv_reordered hperm, ← hq₁]
    refine foldlM_congr (fun names _ p => ?_) _
    dsimp only
    rw [hd]
    exact settle_congr ctx { ctx with kernel := { e with temporaries := ts } } rfl
      (fun m (_ : m ∈ names.map (.ofName e)) env =>
        compatible_eq.writtenType fun i _ => hlooks.relatedAt fun _ _ => trivial)
      (List.Subset.refl _) ∅ false p
  · rw [← hq]
    refine foldlM_congr (fun i _ p => resolveCalls_congr ctx _ (fun env => ?_) p) _
    exact compatible_eq.visit (hlooks.relatedAt fun _ _ => trivial)

end Expanded

/-! ### What is filled in -/

section Filled

variable {k k' : Kernel} {p q : Progress} {t : Table} {R : String → Prop}

theorem nodup_reordered (hnames : (k.declarations.map (·.name)).Nodup)
    (hperm : ts.Perm k.temporaries) :
    (({ k with temporaries := ts } : Kernel).declarations.map (·.name)).Nodup :=
  ((hperm.append_left k.args).map _).nodup_iff.2 hnames

/-- Types are filled in alike, and the same calls are resolved. -/
theorem finishKernel_reordered (he : k.expand = .ok e)
    (honly : ∀ i ∈ e.instructions, ∀ x ∈ i.expressions, CallsOnly R x)
    (hnames : (k.declarations.map (·.name)).Nodup) (hperm : ts.Perm k.temporaries)
    (hnormal : p.renames.Normal k.rules) (h : p.Alike R q)
    (hk' : finishKernel true k p = .ok (k', t)) :
    ∃ k'', finishKernel true { k with temporaries := ts } q = .ok (k'', q.table) ∧
      ∀ name, k''.findVariable? name = k'.findVariable? name := by
  obtain ⟨hrename, -, hcomplete⟩ := finishKernel_eq_ok.1 hk'
  obtain ⟨hresolved, htyped⟩ := hcomplete rfl
  have hnormal' : q.renames.Normal ({ k with temporaries := ts } : Kernel).rules :=
    fun call hcall => hnormal call ((h.contains_eq call).trans hcall)
  have he' := Kernel.expand_reordered he ts
  obtain ⟨a, ha, hsame, -⟩ := Kernel.rename_withTypes_spec hnormal he p.env.toList
  obtain rfl := Except.ok.inj (ha.symm.trans hrename)
  obtain ⟨b, hb, hsame', -⟩ := Kernel.rename_withTypes_spec hnormal' he' p.env.toList
  have hfault : ({ e with temporaries := ts } : Kernel).openFault? q.renames q.table =
      e.openFault? p.renames p.table :=
    (openFault?_eq honly h.contains_eq h.agree).symm
  rw [Kernel.checkFunctionsResolved_rename_withTypes hnormal he (fun _ _ => h.left.entry) ha,
    ← hfault] at hresolved
  have hdeclarations : b.declarations.Perm a.declarations := by
    rw [hsame, hsame', Kernel.withEnv_eq_map hnames, Kernel.withEnv_eq_map
      (nodup_reordered hnames hperm)]
    exact (hperm.map _).append_left _
  refine ⟨b, finishKernel_eq_ok.2 ⟨h.env_eq ▸ hb, rfl, fun _ => ⟨?_, ?_⟩⟩, fun name => ?_⟩
  · rw [Kernel.checkFunctionsResolved_rename_withTypes hnormal' he' (fun _ _ => h.right.entry) hb]
    exact hresolved
  · rw [checkVariablesTyped_eq_ok] at htyped ⊢
    exact fun v hv => htyped v (hdeclarations.mem_iff.1 hv)
  · have hfind := Kernel.findVariable?_reordered hnames hperm name
    calc b.findVariable? name
        = (({ k with temporaries := ts } : Kernel).withTypes p.env.toList).findVariable? name := by
          rw [hsame']
          rfl
      _ = (k.withTypes p.env.toList).findVariable? name := by
          rw [Kernel.findVariable?_withEnv, Kernel.findVariable?_withEnv, hfind]
      _ = a.findVariable? name := by
          rw [hsame]
          rfl

end Filled

theorem inferWith_reordered {fuel : Nat} {k k' : Kernel} {t t' : Table}
    (htarget : target.IgnoresOrder) (hgrows : GrowsTable infer)
    (hsame : ∀ R, SameTypes R infer) (hnames : (k.declarations.map (·.name)).Nodup)
    (hreorders : k.Reorders ts) (hlinked : t.LinkedFrom k)
    (h : inferWith target infer true fuel k t = .ok (k', t')) :
    ∃ k'' t'', inferWith target infer true fuel { k with temporaries := ts } t = .ok (k'', t'') ∧
      ∀ name, k''.findVariable? name = k'.findVariable? name := by
  obtain ⟨ht, e, p, he, hp, hfinish⟩ := inferWith_eq_ok.1 h
  have honly := k.callsOnly_reaches t
  have htemporaries : e.temporaries = k.temporaries := by
    obtain ⟨is, -, rfl⟩ := Kernel.expand_eq_ok.1 he
    rfl
  have hperm : ts.Perm e.temporaries := htemporaries ▸ hreorders.perm
  have hcycles {u v : Variable} (hmutual : (openDependencies e).Mutual u.name v.name) :
      [u, v].Sublist ts ↔ [u, v].Sublist e.temporaries :=
    htemporaries ▸ hreorders.cycles he hmutual
  have hdeclarations : (e.declarations.map (·.name)).Nodup := by
    rw [Kernel.declarations_of_expand he]
    exact hnames
  obtain ⟨q, hq, halike⟩ := inferExpanded_reordered htarget hdeclarations hperm hcycles hgrows
    (hsame (t.Reaches k)) (instructionsOnly_of_expand honly he) hlinked.linked ht hp
  have hnormal := normal_of_inferExpanded ⟨target, e, startEnv e, infer⟩ hgrows he ht hp
  obtain ⟨k'', hk'', hfind⟩ := finishKernel_reordered he (callsOnly_of_expand honly he) hnames
    hreorders.perm hnormal halike hfinish
  exact ⟨k'', q.table, inferWith_eq_ok.2 ⟨ht, _, q, Kernel.expand_reordered he ts, hq, hk''⟩, hfind⟩

end Inference

open Inference

/-! ### Inference -/

section Run

variable {target : Target} {fuel : Nat} {k k' : Kernel} {ts : List Variable} {t t' u : Table}

theorem linkedFrom_beginEdit (h : t.LinkedFrom k) : t.beginEdit.1.LinkedFrom k := by
  intro name hname
  have hreaches : t.Reaches k name := by
    induction hname with
    | called hcalled => exact .called hcalled
    | callee _ hc hcallee ih => exact ih.callee hc hcallee
  exact h name hreaches

theorem infer_reordered (htarget : target.IgnoresOrder)
    (hnames : (k.declarations.map (·.name)).Nodup) (hreorders : k.Reorders ts)
    (hlinked : t.LinkedFrom k) (h : infer target fuel true k t = .ok (k', t')) :
    ∃ k'' t'', infer target fuel true { k with temporaries := ts } t = .ok (k'', t'') ∧
      ∀ name, k''.findVariable? name = k'.findVariable? name := by
  obtain ⟨u, hu, -⟩ := infer_eq_ok_iff.1 h
  cases fuel with
  | zero => cases hu
  | succ fuel =>
    obtain ⟨k'', u', hu', hfind⟩ := inferWith_reordered htarget (inferKernel_grows target fuel true)
      (fun _ => inferKernel_sameTypes target fuel true) hnames hreorders
      (linkedFrom_beginEdit hlinked) hu
    obtain ⟨t'', ht''⟩ :
        ∃ t'', infer target (fuel + 1) true { k with temporaries := ts } t = .ok (k'', t'') :=
      exists_infer_of_inferKernel hu'
    exact ⟨k'', t'', ht'', hfind⟩

/-- To put the temporaries back is to reorder them. -/
theorem reorders_symm (h : k.Reorders ts) :
    Kernel.Reorders { k with temporaries := ts } k.temporaries where
  perm := h.perm.symm
  cycles {e'} he' {u v} hmutual := by
    have htemporaries : e'.temporaries = ts := by
      obtain ⟨is, -, rfl⟩ := Kernel.expand_eq_ok.1 he'
      rfl
    have he : k.expand = .ok { e' with temporaries := k.temporaries } :=
      Kernel.expand_reordered he' k.temporaries
    have hd : openDependencies { e' with temporaries := k.temporaries } = openDependencies e' :=
      openDependencies_reordered (htemporaries ▸ h.perm.symm)
    exact (h.cycles he (hd ▸ hmutual)).symm

end Run

/-- Both outcomes are kernels with the same variables, of the same types, or both are faults. -/
def SameVariables (x y : Outcome (Kernel × Table)) : Prop :=
  (∃ k t k' t', x = .ok (k, t) ∧ y = .ok (k', t') ∧
    ∀ name, k'.findVariable? name = k.findVariable? name) ∨
  ∃ f f', x = .error (.fault f) ∧ y = .error (.fault f')

/-- **Declaration order.**  Let the temporaries of a kernel, whose variables have different names,
be listed in another order, in which those that depend on each other stand as before.  If inference
comes to an end on both kernels, it either gives every variable the same type in both, or fails on
both; provided that all entries that can be reached from the kernel are in the table, and that the
matchers of the target do not look at the order. -/
theorem types_reordered {target : Target} (htarget : target.IgnoresOrder) {k : Kernel}
    {ts : List Variable} {t : Table} {fuel fuel' : Nat}
    (hnames : (k.declarations.map (·.name)).Nodup) (hreorders : k.Reorders ts)
    (hlinked : t.LinkedFrom k) (hends : infer target fuel true k t ≠ .error .exhausted)
    (hends' : infer target fuel' true { k with temporaries := ts } t ≠ .error .exhausted) :
    SameVariables (infer target fuel true k t)
      (infer target fuel' true { k with temporaries := ts } t) := by
  -- both runs with the fuel of the longer one
  have hmax := infer_of_le hends (Nat.le_max_left fuel fuel')
  have hmax' := infer_of_le hends' (Nat.le_max_right fuel fuel')
  rw [← hmax] at hends ⊢
  rw [← hmax'] at hends' ⊢
  clear hmax hmax'
  generalize max fuel fuel' = n at hends hends' ⊢
  have hlinked' : t.LinkedFrom { k with temporaries := ts } := by
    intro name hname
    refine hlinked name ?_
    induction hname with
    | called hcalled => exact .called hcalled
    | callee _ hc hcallee ih => exact ih.callee hc hcallee
  match h : infer target n true k t, h' : infer target n true { k with temporaries := ts } t with
  | .ok (k', t'), _ =>
    obtain ⟨k'', t'', hk'', hfind⟩ := infer_reordered htarget hnames hreorders hlinked h
    exact .inl ⟨k', t', k'', t'', rfl, h'.symm.trans hk'', hfind⟩
  | .error e, .ok (k'', t'') =>
    obtain ⟨k', t', hk', -⟩ := infer_reordered htarget (nodup_reordered hnames hreorders.perm)
      (reorders_symm hreorders) hlinked' h'
    cases h.symm.trans hk'
  | .error .exhausted, .error _ => exact absurd h hends
  | .error (.fault _), .error .exhausted => exact absurd h' hends'
  | .error (.fault f), .error (.fault f') => exact .inr ⟨f, f', rfl, rfl⟩

/-- A temporary whose type is to be found. -/
def openTemporary (name : String) : Variable := ⟨name, .unknown, .temporary⟩

/-- A temporary that is added to itself, and one that takes its type. -/
def accumulator (names : List String) : Kernel := { Kernel.empty "k" with
  args := [⟨"f", .known .float32, .input⟩]
  temporaries := names.map openTemporary
  instructions := [
    ⟨"x", .assign (.var "x") (.nary .sum [.var "x", .var "f"])⟩,
    ⟨"w", .assign (.var "w") (.var "x")⟩] }

theorem not_reaches_accumulator :
    ¬DepthFirst.Reaches (openDependencies (accumulator ["x", "w"])).on "x" "w" := by
  have hclosure : (openDependencies (accumulator ["x", "w"])).closure "x" = .ofList ["x"] := by cbv
  rw [← Dependencies.mem_closure, hclosure]
  decide

theorem reorders_accumulator :
    (accumulator ["x", "w"]).Reorders (["w", "x"].map openTemporary) where
  perm := .swap _ _ _
  cycles {e} he {u v} hmutual := by
    have hexpand : (accumulator ["x", "w"]).expand = .ok (accumulator ["x", "w"]) :=
      Kernel.expand_of_no_rules rfl
    obtain rfl := Except.ok.inj (hexpand.symm.trans he)
    refine iff_of_false (fun h => ?_) fun h => ?_
    · obtain ⟨rfl, hv⟩ := List.cons.inj (h.eq_of_length rfl)
      obtain ⟨rfl, -⟩ := List.cons.inj hv
      exact not_reaches_accumulator hmutual.2
    · obtain ⟨rfl, hv⟩ := List.cons.inj (h.eq_of_length rfl)
      obtain ⟨rfl, -⟩ := List.cons.inj hv
      exact not_reaches_accumulator hmutual.1

theorem exists_infer_accumulator :
    ∃ k t, infer .cLike 6 true (accumulator ["x", "w"]) .empty = .ok (k, t) := by
  obtain ⟨k, u, h⟩ := exists_of_isOk
    (x := inferKernel .cLike 6 true (accumulator ["x", "w"]) Table.empty.beginEdit.1) (by cbv)
  exact ⟨k, exists_infer_of_inferKernel h⟩

theorem exists_infer_accumulator_reordered :
    ∃ k t, infer .cLike 6 true (accumulator ["w", "x"]) .empty = .ok (k, t) := by
  obtain ⟨k, u, h⟩ := exists_of_isOk
    (x := inferKernel .cLike 6 true (accumulator ["w", "x"]) Table.empty.beginEdit.1) (by cbv)
  exact ⟨k, exists_infer_of_inferKernel h⟩

theorem types_reordered_accumulator :
    Target.cLike.IgnoresOrder ∧ ((accumulator ["x", "w"]).declarations.map (·.name)).Nodup ∧
      (accumulator ["x", "w"]).Reorders (["w", "x"].map openTemporary) ∧
      Table.empty.LinkedFrom (accumulator ["x", "w"]) ∧
      ∃ k t k' t', infer .cLike 6 true (accumulator ["x", "w"]) .empty = .ok (k, t) ∧
        infer .cLike 6 true (accumulator ["w", "x"]) .empty = .ok (k', t') ∧
        ∀ name, k'.findVariable? name = k.findVariable? name := by
  have hnames : ((accumulator ["x", "w"]).declarations.map (·.name)).Nodup := by decide
  have hlinked : Table.empty.LinkedFrom (accumulator ["x", "w"]) :=
    Table.linkedFrom_of_calledEntries (by cbv) _
  obtain ⟨k, t, h⟩ := exists_infer_accumulator
  obtain ⟨k', t', h'⟩ := exists_infer_accumulator_reordered
  have hends : infer .cLike 6 true (accumulator ["x", "w"]) .empty ≠ .error .exhausted := by
    simp [h]
  have hends' : infer .cLike 6 true (accumulator ["w", "x"]) .empty ≠ .error .exhausted := by
    simp [h']
  have hsame := types_reordered ignoresOrder_cLike hnames reorders_accumulator hlinked hends hends'
  refine ⟨ignoresOrder_cLike, hnames, reorders_accumulator, hlinked, ?_⟩
  rcases hsame with hsame | ⟨f, f', hfault, -⟩
  · exact hsame
  · cases h.symm.trans hfault

/-! ### What is not so in any order -/

/-- Inference comes to an end on a kernel whose variables have different names and on the kernel
with its temporaries in another order, and it does not come to the same. -/
def OrderMatters (target : Target) (k : Kernel) (ts : List Variable) (t : Table) : Prop :=
  (k.declarations.map (·.name)).Nodup ∧ ts.Perm k.temporaries ∧ ∃ fuel,
    infer target fuel true k t ≠ .error .exhausted ∧
    infer target fuel true { k with temporaries := ts } t ≠ .error .exhausted ∧
    ¬SameVariables (infer target fuel true k t)
      (infer target fuel true { k with temporaries := ts } t)

section OrderMatters

variable {target : Target} {k : Kernel} {ts : List Variable} {t : Table} {fuel : Nat}

theorem orderMatters_of_ne (hnames : (k.declarations.map (·.name)).Nodup)
    (hperm : ts.Perm k.temporaries) {name : String} {v v' : Option Variable}
    (h : (inferKernel target fuel true k t.beginEdit.1).map (·.1.findVariable? name) = .ok v)
    (h' : (inferKernel target fuel true { k with temporaries := ts } t.beginEdit.1).map
      (·.1.findVariable? name) = .ok v') (hne : v ≠ v') : OrderMatters target k ts t := by
  obtain ⟨⟨a, _⟩, ha, rfl⟩ := map_eq_ok.1 h
  obtain ⟨⟨b, _⟩, hb, rfl⟩ := map_eq_ok.1 h'
  obtain ⟨_, ha⟩ := exists_infer_of_inferKernel ha
  obtain ⟨_, hb⟩ := exists_infer_of_inferKernel hb
  refine ⟨hnames, hperm, fuel, ?_, ?_, ?_⟩
  · rw [ha]
    exact nofun
  · rw [hb]
    exact nofun
  · rw [ha, hb]
    rintro (⟨_, _, _, _, hx, hy, hsame⟩ | ⟨_, _, hx, -⟩)
    · obtain ⟨rfl, -⟩ := Prod.mk.inj (Except.ok.inj hx)
      obtain ⟨rfl, -⟩ := Prod.mk.inj (Except.ok.inj hy)
      exact hne (hsame name).symm
    · cases hx

theorem orderMatters_of_fault (hnames : (k.declarations.map (·.name)).Nodup)
    (hperm : ts.Perm k.temporaries)
    (h : ∃ k' t', infer target fuel true k t = .ok (k', t')) {f : Fault}
    (h' : infer target fuel true { k with temporaries := ts } t = .error (.fault f)) :
    OrderMatters target k ts t := by
  obtain ⟨k', t', hk'⟩ := h
  refine ⟨hnames, hperm, fuel, ?_, ?_, ?_⟩
  · rw [hk']
    exact nofun
  · rw [h']
    intro hexhausted
    cases hexhausted
  · rw [hk', h']
    rintro (⟨_, _, _, _, -, hy, -⟩ | ⟨_, _, hx, -⟩)
    · cases hy
    · cases hx

end OrderMatters

/-- Two temporaries that are assigned to each other, one of them through a wide integer. -/
def cyclicPair (names : List String) : Kernel := { Kernel.empty "k" with
  args := [⟨"f", .known .float32, .input⟩]
  temporaries := names.map openTemporary
  instructions := [
    ⟨"x", .assign (.var "x") (.nary .sum [.var "y", .constant (.int 1 (some .int64))])⟩,
    ⟨"y", .assign (.var "y") (.nary .sum [.var "x", .var "f"])⟩] }

theorem inferKernel_cyclicPair :
    (inferKernel .cLike 10 true (cyclicPair ["x", "y"]) Table.empty.beginEdit.1).map
      (·.1.findVariable? "x") = .ok (some ⟨"x", .known .float64, .temporary⟩) := by cbv

theorem inferKernel_swap_cyclicPair :
    (inferKernel .cLike 10 true (cyclicPair ["y", "x"]) Table.empty.beginEdit.1).map
      (·.1.findVariable? "x") = .ok (some ⟨"x", .known .float32, .temporary⟩) := by cbv

/-- Two calls, of which the second one names the entry that the first one resolves to. -/
def nestedCalls (names : List String) : Kernel := { Kernel.empty "k" with
  args := [⟨"f", .known .float32, .input⟩]
  temporaries := names.map openTemporary
  instructions := [
    ⟨"x", .assign (.var "x") (.call (.entry "abs") [.var "f"] [])⟩,
    ⟨"y", .assign (.var "y") (.call (.entry "abs_0") [.var "f"] [])⟩] }

def mathTable : Table := absLibrary.insert "pow" (.ofBuiltin .pow)

theorem exists_infer_nestedCalls :
    ∃ k t, infer .cLike 4 true (nestedCalls ["x", "y"]) mathTable = .ok (k, t) := by
  obtain ⟨k, u, h⟩ := exists_of_isOk
    (x := inferKernel .cLike 4 true (nestedCalls ["x", "y"]) mathTable.beginEdit.1) (by cbv)
  exact ⟨k, exists_infer_of_inferKernel h⟩

theorem infer_swap_nestedCalls : infer .cLike 4 true (nestedCalls ["y", "x"]) mathTable =
    .error (.fault (.noEntry "abs_0")) :=
  infer_eq_error_of_inferKernel (by cbv)

/-- A target with functions only for kernels that list `x` first. -/
def peekingTarget : Target := { Target.cLike with
  overload? _ k name args :=
    if k.temporaries.head? = some (openTemporary "x") then Target.cMath? name args else none }

def bareCall (names : List String) : Kernel := { Kernel.empty "k" with
  args := [⟨"f", .known .float32, .input⟩]
  temporaries := names.map openTemporary
  instructions := [
    ⟨"x", .assign (.var "x") (.call (.bare "sqrt") [.var "f"] [])⟩,
    ⟨"y", .assign (.var "y") (.var "f")⟩] }

theorem exists_infer_bareCall :
    ∃ k t, infer peekingTarget 4 true (bareCall ["x", "y"]) .empty = .ok (k, t) := by
  obtain ⟨k, u, h⟩ := exists_of_isOk
    (x := inferKernel peekingTarget 4 true (bareCall ["x", "y"]) Table.empty.beginEdit.1) (by cbv)
  exact ⟨k, exists_infer_of_inferKernel h⟩

theorem infer_swap_bareCall : infer peekingTarget 4 true (bareCall ["y", "x"]) .empty =
    .error (.fault (.undetermined "x" [] "k")) :=
  infer_eq_error_of_inferKernel (by cbv)

/-- Order matters between temporaries that depend on each other, where a call names an entry that
inference adds, and to a target that looks at it. -/
theorem order_matters :
    OrderMatters .cLike (cyclicPair ["x", "y"]) (["y", "x"].map openTemporary) .empty ∧
      OrderMatters .cLike (nestedCalls ["x", "y"]) (["y", "x"].map openTemporary) mathTable ∧
      OrderMatters peekingTarget (bareCall ["x", "y"]) (["y", "x"].map openTemporary) .empty := by
  refine ⟨?_, ?_, ?_⟩
  · exact orderMatters_of_ne (by decide) (.swap _ _ _) inferKernel_cyclicPair
      inferKernel_swap_cyclicPair (by decide)
  · exact orderMatters_of_fault (by decide) (.swap _ _ _) exists_infer_nestedCalls
      infer_swap_nestedCalls
  · exact orderMatters_of_fault (by decide) (.swap _ _ _) exists_infer_bareCall infer_swap_bareCall

end KernelTyping
