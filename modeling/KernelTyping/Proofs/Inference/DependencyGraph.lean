import KernelTyping.Proofs.Inference.Soundness

/-!
# KernelTyping.Proofs.Inference.DependencyGraph — what the graph of dependencies says

There is an edge from one variable to another if an instruction that writes the one reads the other
(`Kernel.ReadsAmong`).  The edges cover all that an evaluation looks up: types of other names change
nothing, so that a variable whose type the writers of another can depend on is one that it has an
edge to (`evaluation_reads_dependencies`).  The components are the strongly connected components of
the graph, each after those that it has edges to (`components_decompose`).
-/

namespace KernelTyping

open Evaluation

/-! ### Edges -/

/-- An instruction that writes the one name reads the other; both are among `names`. -/
def Kernel.ReadsAmong (k : Kernel) (names : List String) (x y : String) : Prop :=
  x ∈ names ∧ y ∈ names ∧ ∃ i ∈ k.instructions, x ∈ i.writeNames ∧ y ∈ i.readNames

namespace Dependencies

variable {k : Kernel} {names : List String} {x y : String}

/-- A name is tracked where both ends are among `names` and a writer of the one reads the other. -/
theorem mem_on_ofKernel_iff_writers :
    y ∈ (ofKernel k names).on x ↔
      x ∈ names ∧ y ∈ names ∧ ∃ i ∈ k.writers x, y ∈ i.readNames := by
  constructor
  · intro hy
    have hnames : y ∈ names := Inference.on_ofKernel_subset hy
    rw [on_ofKernel] at hy
    split at hy
    case isTrue hx =>
      rw [reads, List.mem_eraseDups, List.mem_filter] at hy
      obtain ⟨i, hi, hread⟩ := List.mem_flatMap.1 hy.1
      exact ⟨hx, hnames, i, hi, Std.ExtTreeSet.mem_toList.1 hread⟩
    case isFalse => cases hy
  · rintro ⟨hx, hy, i, hi, hread⟩
    exact Inference.mem_on_ofKernel hx hy hi hread

/-- Where ids are distinct, the writers of a name are all the instructions that write it. -/
theorem mem_on_ofKernel_iff (hids : (k.instructions.map (·.id)).Nodup) :
    y ∈ (ofKernel k names).on x ↔ k.ReadsAmong names x y := by
  rw [mem_on_ofKernel_iff_writers, k.writers_eq_filter hids]
  simp only [Kernel.ReadsAmong, List.mem_filter, decide_eq_true_eq, and_assoc]

theorem mutual_ofKernel_iff (hids : (k.instructions.map (·.id)).Nodup) :
    (ofKernel k names).Mutual x y ↔
      Relation.ReflTransGen (k.ReadsAmong names) x y ∧
        Relation.ReflTransGen (k.ReadsAmong names) y x := by
  have hedges : (fun a b => b ∈ (ofKernel k names).on a) = k.ReadsAmong names :=
    funext fun a => funext fun b => propext (mem_on_ofKernel_iff hids)
  rw [Mutual, DepthFirst.Reaches, hedges]

end Dependencies

/-! ### What evaluation looks up -/

namespace Inference

/-- The second variable is one whose type the writers of the first can depend on: from some state,
two environments that differ only there lead to evaluations that differ. -/
def DependsOnType (target : Target) (infer : Inference) (k : Kernel) (x y : String) : Prop :=
  ∃ (E₁ E₂ : Env) (s : State), (∀ name, name ≠ y → E₁[name]? = E₂[name]?) ∧
    exec (writtenType ⟨target, k, E₁, infer⟩ (.ofName k x)) s ≠
      exec (writtenType ⟨target, k, E₂, infer⟩ (.ofName k x)) s

variable {target : Target} {infer : Inference} {k : Kernel} {x y : String}

/-- Where the type of a variable depends on that of another, one of its writers reads the other. -/
theorem DependsOnType.exists_writer (h : DependsOnType target infer k x y) :
    ∃ i ∈ k.writers x, y ∈ i.readNames := by
  obtain ⟨E₁, E₂, s, hagree, hdiffer⟩ := h
  by_contra hnone
  have hreads : ∀ i ∈ k.writers x, ∀ read ∈ i.readNames, E₁[read]? = E₂[read]? := by
    intro i hi read hread
    refine hagree read ?_
    rintro rfl
    exact hnone ⟨i, hi, hread⟩
  let ctx : Context := ⟨target, k, ∅, infer⟩
  have hsame : writtenType { ctx with env := E₁ } (.ofName k x) =
      writtenType { ctx with env := E₂ } (.ofName k x) := writtenType_congr_env hreads
  exact hdiffer (congrArg (exec · s) hsame)

/-- What the writer of `z` in `cyclicKernel`, a copy of `y`, assigns to it where `y` has a type. -/
def copiedType (type : ElementType) : Outcome (Option ElementType) :=
  (exec (writtenType ⟨.cLike, cyclicKernel, (∅ : Env).insert "y" type, inferKernel .cLike 0 true⟩
    (.ofName cyclicKernel "z")) (.start absTable)).1

theorem dependsOnType_cyclicKernel :
    DependsOnType .cLike (inferKernel .cLike 0 true) cyclicKernel "z" "y" := by
  have hsingle : copiedType .float32 = .ok (some .float32) := by cbv
  have hdouble : copiedType .float64 = .ok (some .float64) := by cbv
  refine ⟨(∅ : Env).insert "y" .float32, (∅ : Env).insert "y" .float64, .start absTable, ?_, ?_⟩
  · intro name hname
    simp [Ne.symm hname]
  · intro hsame
    have hfound : copiedType .float32 = copiedType .float64 := congrArg Prod.fst hsame
    rw [hsingle, hdouble] at hfound
    cases hfound

end Inference

open Inference

/-- **Evaluation looks up what it declares.**  Where two environments agree on the names that an
expression reads, its evaluation is the same, as a value and as several results: it finds the same
or fails alike, and leaves the same table, renames and unknown names.  So an open variable whose
type the writers of another can depend on is one that the other has an edge to. -/
theorem evaluation_reads_dependencies (target : Target) (infer : Inference) (k : Kernel) :
    (∀ (e : Expr) (E₁ E₂ : Env), (∀ name ∈ e.dependencyNames, E₁[name]? = E₂[name]?) →
      ∀ s, exec (eval ⟨target, k, E₁, infer⟩ e) s = exec (eval ⟨target, k, E₂, infer⟩ e) s ∧
        exec (evalTuple ⟨target, k, E₁, infer⟩ e) s =
          exec (evalTuple ⟨target, k, E₂, infer⟩ e) s) ∧
    ∀ x ∈ openNames k, ∀ y ∈ openNames k, DependsOnType target infer k x y →
      y ∈ (openDependencies k).on x := by
  let ctx : Context := ⟨target, k, ∅, infer⟩
  refine ⟨fun e E₁ E₂ hagree s => ⟨?_, ?_⟩, fun x hx y hy hdepends => ?_⟩
  · have hsame : eval { ctx with env := E₁ } e = eval { ctx with env := E₂ } e :=
      eval_congr_env hagree
    exact congrArg (exec · s) hsame
  · have hsame : evalTuple { ctx with env := E₁ } e = evalTuple { ctx with env := E₂ } e :=
      evalTuple_congr_env hagree
    exact congrArg (exec · s) hsame
  · exact Dependencies.mem_on_ofKernel_iff_writers.2 ⟨hx, hy, hdepends.exists_writer⟩

theorem evaluation_reads_dependencies_cyclicKernel :
    DependsOnType .cLike (inferKernel .cLike 0 true) cyclicKernel "z" "y" ∧
      "y" ∈ (openDependencies cyclicKernel).on "z" ∧
      ∀ s, exec (eval ⟨.cLike, cyclicKernel, (∅ : Env).insert "y" .float32,
          inferKernel .cLike 0 true⟩ (.var "x")) s =
        exec (eval ⟨.cLike, cyclicKernel, ∅, inferKernel .cLike 0 true⟩ (.var "x")) s := by
  obtain ⟨hsame, hedges⟩ :=
    evaluation_reads_dependencies .cLike (inferKernel .cLike 0 true) cyclicKernel
  refine ⟨dependsOnType_cyclicKernel, ?_, fun s => (hsame (.var "x") _ _ ?_ s).1⟩
  · exact hedges "z" (by decide) "y" (by decide) dependsOnType_cyclicKernel
  · intro name hname
    obtain rfl : name = "x" := by
      simpa [Expr.subterms_eq, Expr.children] using Expr.mem_dependencyNames.1 hname
    simp

/-! ### Components -/

namespace Dependencies

section Components

variable {d : Dependencies} {components : List (List String)}

/-- No name is in two components. -/
theorem ComponentsOf.pairwise_disjoint (h : ComponentsOf d names components) :
    components.Pairwise List.Disjoint := by
  have hlater (before : List (List String)) {after : List (List String)} {c c' : List String}
      (hsplit : components = before ++ c :: after) (hc' : c' ∈ after) : c.Disjoint c' := by
    intro x hx
    exact h.disjoint hsplit hx c' hc'
  clear h
  induction components with
  | nil => exact .nil
  | cons c components ih =>
    refine List.pairwise_cons.2 ⟨fun c' hc' => hlater [] rfl hc', ih ?_⟩
    intro before after b b' hsplit hb'
    exact hlater (c :: before) (by rw [hsplit, List.cons_append]) hb'

/-- The components together list each name once. -/
theorem perm_flatten_components (hd : ∀ x y, y ∈ d.on x → y ∈ names) (hnodup : names.Nodup) :
    (d.components names).flatten.Perm names := by
  have hcomponents := componentsOf_components hd
  have hflatten : (d.components names).flatten.Nodup :=
    List.nodup_flatten.2 ⟨fun c hc => nodup_of_mem_components hc, hcomponents.pairwise_disjoint⟩
  exact (List.perm_ext_iff_of_nodup hflatten hnodup).2 fun _ => hcomponents.mem_flatten

/-- Two names share a component if and only if each can be reached from the other. -/
theorem exists_mem_components_iff (hd : ∀ x y, y ∈ d.on x → y ∈ names) (hx : x ∈ names)
    (hy : y ∈ names) : (∃ c ∈ d.components names, x ∈ c ∧ y ∈ c) ↔ d.Mutual x y := by
  constructor
  · rintro ⟨c, hc, hxc, hyc⟩
    obtain ⟨z, -, hmem⟩ := exists_mutual_of_mem_components hd hc
    exact ((hmem x).1 hxc).2.symm.trans ((hmem y).1 hyc).2
  · intro hmutual
    obtain ⟨c, hc, hxc⟩ := ((componentsOf_components hd).mem x).2 hx
    obtain ⟨z, -, hmem⟩ := exists_mutual_of_mem_components hd hc
    exact ⟨c, hc, hxc, (hmem y).2 ⟨hy, ((hmem x).1 hxc).2.trans hmutual⟩⟩

end Components

end Dependencies

open Dependencies in
/-- **The components of a kernel.**  In a kernel with distinct instruction ids, the components of
distinct names list each name exactly once.  Two names share a component if and only if each can be
reached from the other along the edges of the graph; what a name has an edge to is in its component
or in one before it; and a component lists its names in the given order. -/
theorem components_decompose {k : Kernel} {names : List String}
    (hids : (k.instructions.map (·.id)).Nodup) (hnodup : names.Nodup) :
    let components := (Dependencies.ofKernel k names).components names
    components.flatten.Perm names ∧ [] ∉ components ∧
    (∀ x ∈ names, ∀ y ∈ names, (∃ c ∈ components, x ∈ c ∧ y ∈ c) ↔
      Relation.ReflTransGen (k.ReadsAmong names) x y ∧
        Relation.ReflTransGen (k.ReadsAmong names) y x) ∧
    (∀ before c after, components = before ++ c :: after →
      ∀ x ∈ c, ∀ y, k.ReadsAmong names x y → y ∉ c → ∃ b ∈ before, y ∈ b) ∧
    ∀ c ∈ components, c.Sublist names := by
  intro components
  have hd (x y : String) : y ∈ (ofKernel k names).on x → y ∈ names := Inference.on_ofKernel_subset
  refine ⟨perm_flatten_components hd hnodup, fun hempty => ?_, fun x hx y hy => ?_, ?_, ?_⟩
  · obtain ⟨x, hx, hmem⟩ := exists_mutual_of_mem_components hd hempty
    cases (hmem x).2 ⟨hx, .refl x⟩
  · rw [exists_mem_components_iff hd hx hy, mutual_ofKernel_iff hids]
  · intro before c after hsplit x hx y hread hout
    have hon : y ∈ (ofKernel k names).on x := (mem_on_ofKernel_iff hids).2 hread
    exact ((componentsOf_components hd).depends hsplit hx hon).resolve_left hout
  · exact fun c hc => sublist_of_mem_components hnodup hc

theorem components_decompose_cyclicKernel :
    (cyclicKernel.instructions.map (·.id)).Nodup ∧ ["z", "y"].Nodup ∧
      let components := (Dependencies.ofKernel cyclicKernel ["z", "y"]).components ["z", "y"]
      components.flatten.Perm ["z", "y"] ∧ ∃ c ∈ components, "y" ∈ c ∧ "z" ∈ c := by
  have hids : (cyclicKernel.instructions.map (·.id)).Nodup := by decide
  have hnames : ["z", "y"].Nodup := by decide
  obtain ⟨hperm, -, hshare, -, -⟩ := components_decompose hids hnames
  have hyz : cyclicKernel.ReadsAmong ["z", "y"] "y" "z" :=
    ⟨by decide, by decide, cyclicKernel.instructions[0], by decide, by decide, by cbv⟩
  have hzy : cyclicKernel.ReadsAmong ["z", "y"] "z" "y" :=
    ⟨by decide, by decide, cyclicKernel.instructions[1], by decide, by decide, by cbv⟩
  exact ⟨hids, hnames, hperm,
    (hshare "y" (by decide) "z" (by decide)).2 ⟨.single hyz, .single hzy⟩⟩

end KernelTyping
