import KernelTyping.Proofs.Inference.Loop
import KernelTyping.Proofs.Inference.Reordering

/-!
# KernelTyping.Proofs.Inference.Locality — what is added elsewhere does not matter

A kernel can be enlarged by variables that it does not read, and by instructions that write only
such variables (`Kernel.EnlargedTo`).  The old variables keep their writers and depend on old ones
only, so that the components that hold an old variable are those of the smaller kernel
(`EnlargedTo.mem_openComponents`), and an evaluation sees the same for them
(`EnlargedTo.looksLike`).  The new components change the order in which old ones are settled, the
table in between and all names of specializations; but an old component is settled alike wherever it
comes after those that it depends on (`exists_settlesTo`).  So both kernels give the old variables
the same types (`types_local`).
-/

namespace KernelTyping

open Evaluation

/-- The matchers of the target look at nothing of a kernel but the type of its indices. -/
structure Target.SeesIndexType (target : Target) : Prop where
  symbol? {matcher name : String} {k l : Kernel} : l.indexType = k.indexType →
    target.symbol? matcher l name = target.symbol? matcher k name
  overload? {matcher name : String} {k l : Kernel} {args : List ElementType} :
    l.indexType = k.indexType →
      target.overload? matcher l name args = target.overload? matcher k name args

theorem seesIndexType_cLike : Target.cLike.SeesIndexType := ⟨fun _ => rfl, fun _ => rfl⟩

/-! ### A kernel and a larger one -/

namespace Kernel

/-- The name is read by an instruction of the kernel, or in the body of one of its rules. -/
def Reads (k : Kernel) (name : String) : Prop :=
  (∃ i ∈ k.instructions, name ∈ i.readNames) ∨
    ∃ (rule : String) (r : Rule), k.rules[rule]? = some r ∧ name ∈ r.body.dependencyNames

/-- The second kernel is the first one with more variables, whose names are in `added` and which the
first one does not read, and with more instructions, which have other ids and write only to `added`.
They stand anywhere between the old ones. -/
structure EnlargedTo (k l : Kernel) (added : List String) : Prop where
  same : l = { k with
    args := l.args, temporaries := l.temporaries, instructions := l.instructions }
  args : l.args.filter (·.name ∉ added) = k.args
  temporaries : l.temporaries.filter (·.name ∉ added) = k.temporaries
  instructions : l.instructions.filter (·.id ∈ k.instructions.map (·.id)) = k.instructions
  writes {i : Instruction} : i ∈ l.instructions → i.id ∉ k.instructions.map (·.id) →
    i.writeNames ⊆ added
  unread {name : String} : name ∈ added → ¬k.Reads name

/-- An expansion reads no names but those that the kernel reads. -/
theorem reads_of_expand {k e : Kernel} (h : k.expand = .ok e) {name : String}
    (hname : e.Reads name) : k.Reads name := by
  rcases hname with ⟨i, hi, hread⟩ | ⟨rule, r, hr, -⟩
  · rcases Instruction.mem_readNames.1 hread with ⟨x, hx, hname⟩ | hdeclared
    · obtain ⟨j, hj, y, hy, hyx⟩ := exists_of_mem_expand h hi hx
      have hreads : x.VariablesIn k.Reads := by
        refine Expr.each_expandWithin (Expr.ofNode_variablesIn _) (fun rule r hr => ?_) hyx ?_
        · exact Expr.variablesIn_iff.2 fun name hname => .inr ⟨rule, r, hr, hname⟩
        · exact Expr.variablesIn_iff.2 fun name hname =>
            .inl ⟨j, hj, Instruction.mem_readNames.2 (.inl ⟨y, hy, hname⟩)⟩
      exact Expr.variablesIn_iff.1 hreads name hname
    · obtain ⟨is, his, rfl⟩ := expand_eq_ok.1 h
      have hsame : ∀ i ∈ is, i.value? = none → i ∈ k.instructions := by
        refine forall_right_of_forall₂ his fun j hj i hji hvalue => ?_
        cases hji with
        | assign _ _ | assignAll _ _ => cases hvalue
        | oblivious _ => exact hj
      obtain ⟨code, reads, writes, haction, -⟩ := hdeclared
      exact .inl ⟨i, hsame i hi (by simp [Instruction.value?, haction]), hread⟩
  · rw [rules_of_expand h] at hr
    simp at hr

namespace EnlargedTo

variable {k l : Kernel} {added : List String}

/-- A kernel and a larger one expand to a kernel and a larger one. -/
theorem expand {e f : Kernel} (h : k.EnlargedTo l added) (hk : k.expand = .ok e)
    (hl : l.expand = .ok f) : e.EnlargedTo f added := by
  have hreads {name : String} (hname : name ∈ added) : ¬e.Reads name :=
    fun hread => h.unread hname (reads_of_expand hk hread)
  obtain ⟨is, his, rfl⟩ := expand_eq_ok.1 hk
  obtain ⟨js, hjs, rfl⟩ := expand_eq_ok.1 hl
  have hids : is.map (·.id) = k.instructions.map (·.id) := Instruction.Maps.ids_eq his
  have hrules : l.rules = k.rules := by rw [h.same]
  refine ⟨?_, h.args, h.temporaries, ?_, fun {j} hj hnew => ?_, hreads⟩
  · exact congrArg (fun l : Kernel => { l with instructions := js, rules := ∅ }) h.same
  · -- the old instructions among the expanded ones are the old ones, expanded
    let old (i : Instruction) : Bool := i.id ∈ k.instructions.map (·.id)
    have hold := List.rel_filter (p := old) (q := old)
      (fun i j hij => by simp only [old, hij.id_eq]) hjs
    rw [h.instructions, hrules] at hold
    have hmap := mapM_eq_ok.2 (his.imp fun _ _ => Instruction.mapExpressionsM_eq_ok.2)
    have hmap' := mapM_eq_ok.2 (hold.imp fun _ _ => Instruction.mapExpressionsM_eq_ok.2)
    show js.filter (fun j => decide (j.id ∈ is.map (·.id))) = is
    rw [hids]
    exact Except.ok.inj (hmap'.symm.trans hmap)
  · have hwrites : ∀ j ∈ js, j.id ∉ k.instructions.map (·.id) → j.writeNames ⊆ added :=
      forall_right_of_forall₂ hjs fun i hi j hij hnew => by
        rw [hij.writeNames_eq]
        exact h.writes hi (hij.id_eq ▸ hnew)
    exact hwrites j hj (hids ▸ hnew)

section Names

variable (h : k.EnlargedTo l added) {name : String} (hname : name ∉ added)

include h

theorem inames_eq : l.inames = k.inames := by rw [h.same]

theorem params_eq : l.params = k.params := by rw [h.same]

theorem indexType_eq : l.indexType = k.indexType := by rw [h.same]

theorem declarations : l.declarations.filter (·.name ∉ added) = k.declarations := by
  rw [Kernel.declarations, List.filter_append, h.args, h.temporaries]
  rfl

theorem not_mem_of_mem_declarations {v : Variable} (hv : v ∈ k.declarations) : v.name ∉ added := by
  rw [← h.declarations] at hv
  simpa using (List.mem_filter.1 hv).2

/-- Old instructions read old names. -/
theorem not_mem_of_mem_readNames {i : Instruction} (hi : i ∈ k.instructions) {read : String}
    (hread : read ∈ i.readNames) : read ∉ added :=
  fun hadded => h.unread hadded (.inl ⟨i, hi, hread⟩)

theorem untyped : (Inference.untyped l).filter (·.name ∉ added) = Inference.untyped k := by
  rw [Inference.untyped, List.filter_comm, List.filter_append, h.temporaries, h.args]
  rfl

theorem openNames : (Inference.openNames l).filter (· ∉ added) = Inference.openNames k := by
  rw [Inference.openNames, List.filter_comm, List.filter_map, Inference.openNames, ← h.untyped,
    h.params_eq]
  rfl

/-- The open variables of the smaller kernel are old. -/
theorem not_mem_of_mem_openNames {name : String} (hopen : name ∈ Inference.openNames k) :
    name ∉ added := by
  rw [← h.openNames] at hopen
  simpa using (List.mem_filter.1 hopen).2

include hname

theorem findVariable? : l.findVariable? name = k.findVariable? name := by
  rw [findVariable?_eq, findVariable?_eq, ← h.declarations, List.find?_filter]
  congr 1
  funext v
  by_cases hv : v.name = name
  · simp [hv, hname]
  · simp [hv]

theorem mem_openNames : name ∈ Inference.openNames l ↔ name ∈ Inference.openNames k := by
  rw [← h.openNames, List.mem_filter]
  simp [hname]

theorem startEnv : (Inference.startEnv l)[name]? = (Inference.startEnv k)[name]? := by
  have hmem : name ∈ (Inference.untyped l).map (·.name) ↔
      name ∈ (Inference.untyped k).map (·.name) := by
    rw [← h.untyped]
    simp only [List.mem_map, List.mem_filter]
    refine exists_congr fun v => ⟨fun ⟨hv, heq⟩ => ⟨⟨hv, ?_⟩, heq⟩, fun ⟨hv, heq⟩ => ⟨hv.1, heq⟩⟩
    simpa [heq] using hname
  unfold Inference.startEnv
  rw [Dependencies.getElem?_ofList_map fun _ => l.indexType,
    Dependencies.getElem?_ofList_map fun _ => k.indexType, h.params_eq, h.indexType_eq]
  simp only [List.mem_filter, hmem]

/-- Old variables are written by old instructions. -/
theorem writers : l.writers name = k.writers name := by
  have hold : l.instructions.filter (name ∈ ·.writeNames) =
      k.instructions.filter (name ∈ ·.writeNames) := by
    rw [← h.instructions, List.filter_filter]
    refine List.filter_congr fun i hi => ?_
    by_cases hwrites : name ∈ i.writeNames
    · have hid : i.id ∈ k.instructions.map (·.id) := by
        by_contra hnew
        exact hname (h.writes hi hnew hwrites)
      simp only [hwrites, hid, decide_true, Bool.and_self]
    · simp only [hwrites, decide_false, Bool.false_and]
  have hids : l.writerIds name = k.writerIds name := by
    rw [writerIds, hold]
    rfl
  rw [Kernel.writers, hids]
  refine List.filterMap_congr fun id hid => ?_
  have hid : id ∈ k.instructions.map (·.id) := by
    obtain ⟨i, hi, rfl⟩ := List.mem_map.1 (List.mem_eraseDups.1 hid)
    exact List.mem_map_of_mem (List.mem_filter.1 hi).1
  rw [findInstruction?, findInstruction?, ← h.instructions, List.find?_filter]
  congr 1
  funext i
  by_cases hi : i.id = id
  · simp only [hi, hid, BEq.rfl, decide_true, and_self]
  · simp [hi]

end Names

end EnlargedTo

end Kernel

namespace Inference

variable {k l : Kernel} {added : List String}

/-! ### Components -/

/-- An old variable depends on what it did. -/
theorem on_enlarged (h : k.EnlargedTo l added) {x : String} (hx : x ∉ added) :
    (openDependencies l).on x = (openDependencies k).on x := by
  have hreads : Dependencies.reads l (.ofList (openNames l)) x =
      Dependencies.reads k (.ofList (openNames k)) x := by
    rw [Dependencies.reads, Dependencies.reads, h.writers hx]
    congr 1
    refine List.filter_congr fun read hread => ?_
    obtain ⟨i, hi, hread⟩ := List.mem_flatMap.1 hread
    have hi : i ∈ k.instructions :=
      writersIn_ofName k [x] (.ofName k x) (by simp) i hi
    have hold := h.not_mem_of_mem_readNames hi (Std.ExtTreeSet.mem_toList.1 hread)
    rw [Bool.eq_iff_iff]
    simp only [Std.ExtTreeSet.contains_ofList, List.contains_iff_mem, h.mem_openNames hold]
  rw [openDependencies, openDependencies, Dependencies.on_ofKernel, Dependencies.on_ofKernel,
    hreads]
  simp only [h.mem_openNames hx]

/-- A component of the larger kernel is new, or one of the smaller kernel. -/
theorem mem_openComponents_enlarged (h : k.EnlargedTo l added) {c : List String}
    (hc : c ∈ openComponents l) : (∀ x ∈ c, x ∈ added) ∨ c ∈ openComponents k := by
  have hclosed (x y : String) (hx : decide (x ∉ added) = true)
      (hy : y ∈ (openDependencies k).on x) : decide (y ∉ added) = true := by
    have hx : x ∉ added := of_decide_eq_true hx
    have hopen : y ∈ (openNames l).filter (· ∉ added) := h.openNames ▸ on_ofKernel_subset hy
    exact (List.mem_filter.1 hopen).2
  rcases Dependencies.mem_components_of_filter (fun x y => on_ofKernel_subset)
    (fun x y => on_ofKernel_subset) h.openNames hclosed
    (fun x hx => on_enlarged h (of_decide_eq_true hx)) hc with hnew | hold
  · exact .inl fun x hx => by simpa using hnew x hx
  · exact .inr hold

/-! ### Evaluation -/

variable {target : Target} {infer : Inference}

/-- To an evaluation that looks up old names, the two kernels look the same. -/
theorem looksLike_enlarged (htarget : target.SeesIndexType) (h : k.EnlargedTo l added) :
    LooksLike target (· ∉ added) l k where
  inames := h.inames_eq
  params := h.params_eq
  indexType := h.indexType_eq
  functionMatchers := by rw [h.same]
  symbol? name := by
    have hmatchers : l.symbolMatchers = k.symbolMatchers := by rw [h.same]
    rw [Kernel.symbol?, Kernel.symbol?, hmatchers]
    exact findSome?_congr fun _ _ => htarget.symbol? h.indexType_eq
  overload? _ _ _ := htarget.overload? h.indexType_eq
  findVariable? := h.findVariable?

/-- An old component is settled alike in both kernels. -/
theorem settleComponent_enlarged (htarget : target.SeesIndexType) (h : k.EnlargedTo l added)
    {complete : Bool} {fuel : Nat} {c : List String} (hc : ∀ x ∈ c, x ∉ added) (p : Progress) :
    settleComponent ⟨target, l, startEnv l, infer⟩ (openDependencies l) complete fuel p c =
      settleComponent ⟨target, k, startEnv k, infer⟩ (openDependencies k) complete fuel p c := by
  have hmembers : c.map (Member.ofName l) = c.map (Member.ofName k) :=
    List.map_congr_left fun x hx => congrArg (Member.mk x) (h.writers (hc x hx))
  have honePass : needsOnePass (openDependencies l) c = needsOnePass (openDependencies k) c := by
    match c, hc with
    | [x], hc => simp only [needsOnePass, Dependencies.onItself, on_enlarged h (hc x (by simp))]
    | [], _ | _ :: _ :: _, _ => simp only [needsOnePass]
  rw [settleComponent_eq, settleComponent_eq, honePass]
  dsimp only
  rw [hmembers]
  refine settle_congr ⟨target, k, startEnv k, infer⟩ ⟨target, l, startEnv l, infer⟩ ?_
    (fun m hm env => ?_) (List.Subset.refl _) ∅ false p
  · rw [h.same]
  · exact compatible_eq.writtenType fun i hi => (looksLike_enlarged htarget h).relatedAt
      fun read => h.not_mem_of_mem_readNames (writersIn_ofName k c m hm i hi)

/-! ### A run on the larger kernel -/

/-- Where the components in `before` are settled in the larger kernel, the old variables in them
have the types in `types`. -/
structure Tracks (l : Kernel) (added : List String) (t : Table) (types : Env)
    (before : List (List String)) (p : Progress) : Prop where
  grows : t.Grows p.table
  sound : p.Sound
  found {x : String} : x ∉ added → x ∈ before.flatten → p.env[x]? = types[x]?
  untouched {x : String} : x ∉ before.flatten → p.env[x]? = (startEnv l)[x]?

section Settle

variable (htarget : target.SeesIndexType) (h : k.EnlargedTo l added) {complete : Bool} {fuel : Nat}
  {t : Table} {types : Env} {before after : List (List String)} {c : List String} {p q : Progress}
  (hcomponents : Dependencies.ComponentsOf (openDependencies l) (openNames l)
    (before ++ c :: after))
  (htypes : ∀ x, x ∉ openNames k → types[x]? = (startEnv k)[x]?)
  (hp : Tracks l added t types before p)
  (hq : settleComponent ⟨target, l, startEnv l, infer⟩ (openDependencies l) complete fuel p c =
    .ok q)

include h hcomponents htypes hp

/-- What the writers of an old component read outside of it has the types of the run on the smaller
kernel, when the component is reached in the larger one. -/
theorem Tracks.reads (hold : c ∈ openComponents k) {y : String} (hy : y ∈ c) {i : Instruction}
    (hi : i ∈ k.writers y) {read : String} (hread : read ∈ i.readNames) (hout : read ∉ c) :
    p.env[read]? = types[read]? := by
  have hopen : y ∈ openNames k := ((componentsOf_ofKernel k (openNames k)).mem y).1 ⟨c, hold, hy⟩
  have hread' : read ∉ added :=
    h.not_mem_of_mem_readNames (writersIn_ofName k [y] (.ofName k y) (by simp) i hi) hread
  have hi' : i ∈ l.writers y := h.writers (h.not_mem_of_mem_openNames hopen) ▸ hi
  rcases hcomponents.before_or_outside hy hout fun hopen' =>
    mem_on_ofKernel ((hcomponents.mem y).1 ⟨c, by simp, hy⟩) hopen' hi' hread with
    hbefore | ⟨hclosed, hbefore⟩
  · exact hp.found hread' hbefore
  · rw [htypes read (mt (h.mem_openNames hread').2 hclosed), ← h.startEnv hread']
    exact hp.untouched hbefore

include htarget hq

/-- An old component is settled with the types of the run on the smaller kernel, since it is settled
alike wherever it stands. -/
theorem Tracks.env_eq_of_old (hold : c ∈ openComponents k) {recorded : Expr → Bool}
    (hsettles : SettlesTo ⟨target, k, startEnv k, infer⟩ complete fuel t types c recorded)
    {x : String} (hx : x ∈ c) : q.env[x]? = types[x]? := by
  have hkept (y : String) (hy : y ∈ c) : y ∉ added :=
    h.not_mem_of_mem_openNames
      (((componentsOf_ofKernel k (openNames k)).mem y).1 ⟨c, hold, hy⟩)
  have hstart (y : String) (hy : y ∈ c) : p.env[y]? = (startEnv k)[y]? := by
    rw [hp.untouched (hcomponents.not_mem_before hy)]
    exact h.startEnv (hkept y hy)
  obtain ⟨q', hq', htypes', -⟩ := hsettles p hp.sound hp.grows hstart
    fun y hy i hi read => hp.reads h hcomponents htypes hold hy hi
  rw [settleComponent_enlarged htarget h hkept] at hq
  obtain rfl := Except.ok.inj (hq.symm.trans hq')
  exact htypes' x hx

/-- Another component is settled, a new one or an old one. -/
theorem Tracks.settle (hgrows : GrowsTable infer)
    (hsettles : ∀ c ∈ openComponents k, ∃ recorded,
      SettlesTo ⟨target, k, startEnv k, infer⟩ complete fuel t types c recorded)
    (hmem : c ∈ openComponents l) : Tracks l added t types (before ++ [c]) q := by
  have hsteps := steps_of_settleComponent hq
  obtain ⟨hpq, hqsound⟩ := hsteps.grows hgrows hp.sound
  refine ⟨hp.grows.trans hpq, hqsound, fun {x} hx hmemx => ?_, fun {x} hx => ?_⟩
  · by_cases hxc : x ∈ c
    · have hold : c ∈ openComponents k :=
        (mem_openComponents_enlarged h hmem).resolve_left fun hnew => hx (hnew x hxc)
      obtain ⟨recorded, hsettles⟩ := hsettles c hold
      exact hp.env_eq_of_old htarget h hcomponents htypes hq hold hsettles hxc
    · rw [hsteps.env_eq (forall_members_ne hxc)]
      exact hp.found hx (by simpa [hxc] using hmemx)
  · have hx : x ∉ before.flatten ∧ x ∉ c := by simpa [not_or] using hx
    rw [hsteps.env_eq (forall_members_ne hx.2)]
    exact hp.untouched hx.1

end Settle

/-- Runs on both kernels find the same types for the old variables. -/
theorem env_eq_of_enlarged (htarget : target.SeesIndexType) (h : k.EnlargedTo l added)
    (hgrows : GrowsTable infer) {R : String → Prop} (hsame : SameTypes R infer)
    (honly : InstructionsOnly R k) {complete : Bool} {fuel : Nat} {t : Table}
    (hlinked : Table.Linked R t) (ht : t.isEditing = true) {p q : Progress}
    (hp : inferExpanded ⟨target, k, startEnv k, infer⟩ complete fuel t = .ok p)
    (hq : inferExpanded ⟨target, l, startEnv l, infer⟩ complete fuel t = .ok q) {x : String}
    (hx : x ∉ added) : q.env[x]? = p.env[x]? := by
  obtain ⟨p₁, hp₁, hp⟩ := inferExpanded_eq_ok.1 hp
  obtain ⟨q₁, hq₁, hq⟩ := inferExpanded_eq_ok.1 hq
  -- the calls that are resolved in the end change no type
  rw [(steps_of_foldlM_resolveCalls (List.filter_subset_self _) hp).env_eq_of_nil,
    (steps_of_foldlM_resolveCalls (List.filter_subset_self _) hq).env_eq_of_nil]
  have hcomponents := componentsOf_ofKernel k (openNames k)
  have htypes (x : String) (hx : x ∉ openNames k) : p₁.env[x]? = (startEnv k)[x]? :=
    env_eq_of_not_open hcomponents hp₁ hx
  have hsettles (c : List String) (hc : c ∈ openComponents k) : ∃ recorded,
      SettlesTo ⟨target, k, startEnv k, infer⟩ complete fuel t p₁.env c recorded :=
    exists_settlesTo ⟨target, k, startEnv k, infer⟩ hgrows hsame honly hlinked ht
      hcomponents hp₁ hc
  have htracks (before after : List (List String)) (hsplit : openComponents l = before ++ after)
      (p : Progress) (hp : before.foldlM (settleComponent ⟨target, l, startEnv l, infer⟩
        (openDependencies l) complete fuel) ⟨startEnv l, t, .empty⟩ = .ok p) :
      Tracks l added t p₁.env before p := by
    induction before using List.reverseRecOn generalizing after p with
    | nil =>
      obtain rfl := Except.ok.inj hp
      exact ⟨.refl t, .start ht _, fun _ => nofun, fun _ => rfl⟩
    | append_singleton before c ih =>
      have hsplit : openComponents l = before ++ c :: after := by simpa using hsplit
      rw [List.foldlM_append] at hp
      obtain ⟨r, hr, hp⟩ := bind_eq_ok.1 hp
      obtain ⟨q, hq, hp⟩ := bind_eq_ok.1 hp
      obtain rfl := Except.ok.inj hp
      have hcomponents : Dependencies.ComponentsOf (openDependencies l) (openNames l)
          (before ++ c :: after) := hsplit ▸ componentsOf_ofKernel l (openNames l)
      exact (ih (c :: after) hsplit r hr).settle htarget h hcomponents htypes hq hgrows hsettles
        (by simp [hsplit])
  have hdone := htracks (openComponents l) [] (by simp) q₁ hq₁
  have hflatten := (componentsOf_ofKernel l (openNames l)).mem_flatten (x := x)
  by_cases hopen : x ∈ openNames l
  · exact hdone.found hx (hflatten.2 hopen)
  · rw [htypes x (mt (h.mem_openNames hx).2 hopen), ← h.startEnv hx]
    exact hdone.untouched (mt hflatten.1 hopen)

end Inference

open Inference

/-- **Locality.**  Let a kernel be enlarged by variables that it does not read and by instructions
that write only such variables, inserted anywhere.  If inference succeeds on both kernels, in either
mode and with whatever fuel, it gives each variable of the smaller one the same type in both;
provided that all entries that can be reached from the smaller kernel are in the table, and that the
matchers of the target see only the type of a kernel's indices. -/
theorem types_local {target : Target} (htarget : target.SeesIndexType) {k l : Kernel}
    {added : List String} (hadded : k.EnlargedTo l added) {t : Table} (hlinked : t.LinkedFrom k)
    {complete : Bool} {fuel fuel' : Nat} {k' l' : Kernel} {t' u' : Table}
    (hk : infer target fuel complete k t = .ok (k', t'))
    (hl : infer target fuel' complete l t = .ok (l', u')) {v : Variable}
    (hv : v ∈ k.declarations) : l'.findVariable? v.name = k'.findVariable? v.name := by
  -- both runs with the fuel of the longer one
  have hmax : infer target (max fuel fuel') complete k t = .ok (k', t') :=
    (infer_of_le (by rw [hk]; exact nofun) (Nat.le_max_left fuel fuel')).trans hk
  have hmax' : infer target (max fuel fuel') complete l t = .ok (l', u') :=
    (infer_of_le (by rw [hl]; exact nofun) (Nat.le_max_right fuel fuel')).trans hl
  generalize max fuel fuel' = n at hmax hmax'
  obtain ⟨t₁, ht₁, -⟩ := infer_eq_ok_iff.1 hmax
  obtain ⟨u₁, hu₁, -⟩ := infer_eq_ok_iff.1 hmax'
  cases n with
  | zero => cases ht₁
  | succ n =>
    obtain ⟨ht, e, p, he, hp, hfinish⟩ := inferWith_eq_ok.1 ht₁
    obtain ⟨-, f, q, hf, hq, hfinish'⟩ := inferWith_eq_ok.1 hu₁
    have hold : v.name ∉ added := hadded.not_mem_of_mem_declarations hv
    have honly : InstructionsOnly (t.beginEdit.1.Reaches k) e :=
      instructionsOnly_of_expand (k.callsOnly_reaches _) he
    have henv : q.env[v.name]? = p.env[v.name]? :=
      env_eq_of_enlarged htarget (hadded.expand he hf) (inferKernel_grows target n true)
        (inferKernel_sameTypes target n true) honly (linkedFrom_beginEdit hlinked).linked ht hp hq
        hold
    rw [findVariable?_of_finishKernel hfinish', findVariable?_of_finishKernel hfinish,
      hadded.findVariable? hold, henv]

/-- A temporary that takes a known type. -/
def copiedInput : Kernel := { Kernel.empty "k" with
  args := [⟨"f", .known .float32, .input⟩]
  temporaries := [openTemporary "w"]
  instructions := [⟨"w", .assign (.var "w") (.var "f")⟩] }

/-- The same kernel with a temporary for the root of the other one, both before what is there. -/
def rootedInput : Kernel := { copiedInput with
  temporaries := [openTemporary "z", openTemporary "w"]
  instructions := ⟨"z", .assign (.var "z") (.call (.bare "sqrt") [.var "w"] [])⟩ ::
    copiedInput.instructions }

theorem not_reads_copiedInput : ¬copiedInput.Reads "z" := by
  rintro (⟨i, hi, hread⟩ | ⟨rule, r, hr, -⟩)
  · have hreads : (copiedInput.instructions.any (·.readNames.contains "z")) = false := by cbv
    rw [List.any_eq_false] at hreads
    exact hreads i hi (Std.ExtTreeSet.mem_iff_contains.1 hread)
  · simp [copiedInput, Kernel.empty] at hr

theorem enlargedTo_rootedInput : copiedInput.EnlargedTo rootedInput ["z"] where
  same := rfl
  args := by decide
  temporaries := by decide
  instructions := by decide
  writes {i} hi hnew := by
    rcases List.mem_cons.1 hi with rfl | hi
    · exact List.Subset.refl _
    · exact absurd (List.mem_map_of_mem hi) hnew
  unread {name} hname := by
    obtain rfl := List.mem_singleton.1 hname
    exact not_reads_copiedInput

theorem exists_infer_copiedInput :
    ∃ k t, infer .cLike 4 true copiedInput .empty = .ok (k, t) :=
  exists_of_isOk (x := infer .cLike 4 true copiedInput .empty) (by cbv)

theorem exists_infer_rootedInput :
    ∃ l u, infer .cLike 4 true rootedInput .empty = .ok (l, u) :=
  exists_of_isOk (x := infer .cLike 4 true rootedInput .empty) (by cbv)

theorem types_local_rootedInput :
    Target.cLike.SeesIndexType ∧ copiedInput.EnlargedTo rootedInput ["z"] ∧
      Table.empty.LinkedFrom copiedInput ∧
      ∃ k' t' l' u', infer .cLike 4 true copiedInput .empty = .ok (k', t') ∧
        infer .cLike 4 true rootedInput .empty = .ok (l', u') ∧
        ∀ v ∈ copiedInput.declarations, l'.findVariable? v.name = k'.findVariable? v.name := by
  have hlinked : Table.empty.LinkedFrom copiedInput :=
    Table.linkedFrom_of_calledEntries (by cbv) _
  obtain ⟨k', t', hk⟩ := exists_infer_copiedInput
  obtain ⟨l', u', hl⟩ := exists_infer_rootedInput
  exact ⟨seesIndexType_cLike, enlargedTo_rootedInput, hlinked, k', t', l', u', hk, hl,
    fun _ => types_local seesIndexType_cLike enlargedTo_rootedInput hlinked hk hl⟩

end KernelTyping
