import KernelTyping.Completeness
import KernelTyping.Renaming
import KernelTyping.Proofs.Expansion
import KernelTyping.Proofs.Renames
import KernelTyping.Proofs.Table.Growth

/-!
# KernelTyping.Proofs.Renaming — renaming and expansion commute

Calls are recorded as they stand in the expanded kernel.  So a kernel that is renamed and then
expanded is the expanded kernel with its recorded calls renamed (`Kernel.rename_spec`), whatever its
rules are, and it is complete if its expansion was but for the recorded calls
(`checkFunctionsResolved_eq`).
-/

namespace KernelTyping

namespace Expr

variable {rules : Rules} {m : Renames} {e : Expr}

/-! ### Renamed calls -/

theorem withChildren_withChildren {cs ds : List Expr} (hcs : cs.length = e.children.length)
    (hds : ds.length = e.children.length) : (e.withChildren cs).withChildren ds =
      e.withChildren ds := by
  cases e with
  | call callee args keywords =>
    simp only [children, List.length_append, List.length_map] at hcs
    have hdrop : (keywords.map (·.1)).length ≤ (cs.drop args.length).length := by
      simp [hcs]
    have htake : (cs.take args.length).length = args.length := by simp [hcs]
    simp only [withChildren, htake, List.map_fst_zip hdrop]
  | constant _ | var _ | hardware _ | nary _ _ | tupleReduction _ _ _ => rfl
  | binary _ _ _ | linearSubscript _ _ =>
    obtain ⟨_, _, rfl⟩ := List.length_eq_two.1 hcs
    obtain ⟨_, _, rfl⟩ := List.length_eq_two.1 hds
    rfl
  | not _ | lookup _ _ | cast _ _ | reduction _ _ _ | view _ _ =>
    obtain ⟨_, rfl⟩ := List.length_eq_one_iff.1 hcs
    obtain ⟨_, rfl⟩ := List.length_eq_one_iff.1 hds
    rfl
  | ite _ _ _ =>
    obtain ⟨_, _, _, rfl⟩ := List.length_eq_three.1 hcs
    obtain ⟨_, _, _, rfl⟩ := List.length_eq_three.1 hds
    rfl
  | subscript _ is =>
    obtain ⟨_, _, rfl⟩ := List.exists_cons_of_length_eq_add_one hcs
    obtain ⟨_, _, rfl⟩ := List.exists_cons_of_length_eq_add_one hds
    rfl

theorem children_pointTo (name? : Option String) (e : Expr) :
    (e.pointTo name?).children = e.children := by
  cases name? with
  | none => rfl
  | some name => cases e <;> rfl

theorem withChildren_pointTo (name? : Option String) (e : Expr) (cs : List Expr) :
    (e.pointTo name?).withChildren cs = (e.withChildren cs).pointTo name? := by
  cases name? with
  | none => rfl
  | some name =>
    cases e <;> simp only [pointTo, withCallee, withChildren] <;> split <;> simp_all

@[simp] theorem isCall_withChildren (e : Expr) (cs : List Expr) :
    (e.withChildren cs).isCall = e.isCall := by
  cases e <;> unfold withChildren <;> split <;> simp_all [isCall]

@[simp] theorem isCall_pointTo (name? : Option String) (e : Expr) :
    (e.pointTo name?).isCall = e.isCall := by
  cases name? with
  | none => rfl
  | some name => cases e <;> rfl

/-- A call that is pointed to an entry is no invocation. -/
theorem invocation?_pointTo (name? : Option String) (h : e.invocation? rules = none) :
    (e.pointTo name?).invocation? rules = none := by
  cases name? with
  | none => exact h
  | some name => cases e <;> rfl

theorem children_renameCalls (m : Renames) (e : Expr) :
    (e.renameCalls m).children = e.children.map (renameCalls m) := by
  rw [renameCalls_eq, children_pointTo, children_mapChildren]

theorem subterms_renameCalls (m : Renames) (e : Expr) :
    (e.renameCalls m).subterms = e.subterms.map (renameCalls m) := by
  induction e using inductionOnChildren with
  | step e ih =>
    rw [subterms_eq, subterms_eq e, children_renameCalls, List.map_cons, List.flatMap_map,
      List.map_flatMap]
    congr 1
    rw [List.flatMap_def, List.flatMap_def, List.map_congr_left ih]

theorem isCall_renameCalls (m : Renames) (e : Expr) : (e.renameCalls m).isCall = e.isCall := by
  rw [renameCalls_eq, isCall_pointTo, mapChildren, isCall_withChildren]

theorem calls_renameCalls (m : Renames) (e : Expr) :
    (e.renameCalls m).calls = e.calls.map (renameCalls m) := by
  rw [calls, calls, subterms_renameCalls, List.filter_map]
  congr 1
  exact List.filter_congr fun d _ => isCall_renameCalls m d

/-- A renamed call refers to its specialization, and any other call to what it did. -/
theorem callee?_renameCalls (h : e.isCall = true) :
    (e.renameCalls m).callee? = ((m.get? e).map .entry).or e.callee? := by
  rw [renameCalls_eq]
  cases e with
  | call callee args keywords =>
    cases m.get? (call callee args keywords) <;> rfl
  | _ => cases h

/-- Where no call is recorded nothing changes. -/
theorem renameCalls_of_get?_eq_none (h : ∀ d ∈ e.subterms, m.get? d = none) :
    e.renameCalls m = e := by
  induction e using inductionOnChildren with
  | step e ih =>
    have hchildren : e.children.map (renameCalls m) = e.children := by
      refine (List.map_congr_left fun c hc => ?_).trans (List.map_id _)
      exact ih c hc fun d hd => h d (mem_subterms_of_mem_children hc hd)
    rw [renameCalls_eq, mapChildren, hchildren, withChildren_children, h e (mem_subterms_self e)]
    rfl

theorem expanded_renameCalls (h : e.Expanded rules) : (e.renameCalls m).Expanded rules := by
  induction e using inductionOnChildren with
  | step e ih =>
    obtain ⟨he, hchildren⟩ := each_iff.1 h
    refine each_iff.2 ⟨?_, ?_⟩
    · rw [renameCalls_eq, mapChildren]
      exact invocation?_pointTo _ (invocation?_withChildren (by simp) he)
    · rw [children_renameCalls]
      exact List.forall_mem_map.2 fun c hc => ih c hc (hchildren c hc)

end Expr

/-! ### Renaming before expansion -/

/-- All that is recorded is calls in expanded form. -/
def Renames.Normal (rules : Rules) (m : Renames) : Prop :=
  ∀ e, m.contains e = true → e.isCall = true ∧ e.Expanded rules

namespace Expr

variable {rules : Rules} {m : Renames} {e x : Expr}

theorem get?_eq_none_of_not_isCall (hm : m.Normal rules) (h : e.isCall = false) :
    m.get? e = none := by
  rw [← Option.not_isSome_iff_eq_none]
  intro hsome
  rw [(hm e hsome).1] at h
  cases h

theorem newName?_eq (hm : m.Normal rules) (hx : e.expand rules = .ok x)
    (hcall : x.isCall = e.isCall) : e.newName? rules m = .ok (m.get? x) := by
  unfold newName?
  cases hname : m.get? e with
  | some name =>
    have he := (hm e (by simp [Renames.contains, hname])).2
    obtain rfl := Except.ok.inj ((expandWithin_of_expanded _ he).symm.trans hx)
    rw [hname]
  | none =>
    cases hecall : e.isCall with
    | true => simp [hx, Except.map]
    | false => simp [get?_eq_none_of_not_isCall hm (hcall.trans hecall)]

/-- What is renamed and then expanded is the expansion with its recorded calls renamed. -/
theorem rename_spec (hm : m.Normal rules) (h : e.expand rules = .ok x) :
    ∃ y, e.rename rules m = .ok y ∧ y.expand rules = .ok (x.renameCalls m) := by
  induction e using inductionOnChildren generalizing x with
  | step e ih =>
    have hexpanded : x.Expanded rules := expanded_expandWithin h
    cases hinvocation : e.invocation? rules with
    | some found =>
      rw [rename_of_invocation hinvocation, h]
      refine ⟨_, rfl, ?_⟩
      dsimp only
      split
      case isTrue => exact expandWithin_of_expanded _ (expanded_renameCalls hexpanded)
      case isFalse hany =>
        have hnone : ∀ d ∈ x.subterms, m.get? d = none := by
          intro d hd
          cases hcall : d.isCall with
          | false => exact get?_eq_none_of_not_isCall hm hcall
          | true =>
            rw [← Option.not_isSome_iff_eq_none]
            exact fun hsome => hany (List.any_eq_true.2 ⟨d, mem_calls.2 ⟨hd, hcall⟩, hsome⟩)
        rw [renameCalls_of_get?_eq_none hnone]
        exact h
    | none =>
      have hchildren := h
      rw [expand, expandWithin_of_not_invocation _ hinvocation] at hchildren
      obtain ⟨cs, hcs, hx⟩ := bind_eq_ok.1 hchildren
      obtain rfl := Except.ok.inj hx
      have hcs' := (List.forall₂_and_left _ _).2 ⟨fun c hc => hc, mapM_eq_ok.1 hcs⟩
      obtain ⟨ys, hys, hzs⟩ := forall₂_square (S := fun c y => c.rename rules m = .ok y)
        (T := fun y z => y.expand rules = .ok z) (g := renameCalls m) hcs' fun c x' hc =>
          ih c hc.1 hc.2
      have hmap : ys.mapM (expandWithin rules expansionDepth) = .ok (cs.map (renameCalls m)) :=
        mapM_eq_ok.2 hzs
      have hcslength : cs.length = e.children.length := hcs'.length_eq.symm
      have hyslength : ys.length = e.children.length := hys.length_eq.symm
      have hzslength : (cs.map (renameCalls m)).length = e.children.length := by simp [hcslength]
      have hname := newName?_eq hm h (isCall_withChildren e cs)
      refine ⟨(e.withChildren ys).pointTo (m.get? (e.withChildren cs)), ?_, ?_⟩
      · rw [rename_of_not_invocation hinvocation, hname]
        show Except.map _ (e.mapChildrenM (rename rules m)) = _
        rw [mapChildrenM, mapM_eq_ok.2 hys]
        rfl
      · rw [expand, expandWithin_of_not_invocation _
          (invocation?_pointTo _ (invocation?_withChildren hyslength hinvocation)), mapChildrenM,
          children_pointTo, children_withChildren hyslength, hmap, ok_bind,
          withChildren_pointTo, withChildren_withChildren hyslength hzslength, renameCalls_eq,
          mapChildren, children_withChildren hcslength,
          withChildren_withChildren hcslength hzslength]
        rfl

end Expr

/-! ### Kernels -/

namespace Kernel

variable {k e : Kernel} {m : Renames}

theorem mapExpressions_of_eq_self {f : Expr → Expr} (hf : ∀ x, f x = x) (i : Instruction) :
    i.mapExpressions f = i := by
  have hf : f = id := funext hf
  obtain ⟨id, action⟩ := i
  cases action <;> simp [hf, Instruction.mapExpressions, Assignee.mapIndices]

theorem get?_of_isEmpty (h : m.isEmpty = true) (e : Expr) : m.get? e = none := by
  obtain ⟨entries⟩ := m
  obtain rfl : entries = [] := List.isEmpty_iff.1 h
  rfl

/-- A kernel that is renamed expands to the expansion with its recorded calls renamed; all else
stays. -/
theorem rename_spec (hm : m.Normal k.rules) (h : k.expand = .ok e) :
    ∃ k', k.rename m = .ok k' ∧ k' = { k with instructions := k'.instructions } ∧
      k'.expand =
        .ok { e with
          instructions := e.instructions.map (·.mapExpressions (Expr.renameCalls m)) } := by
  obtain ⟨es, hes, rfl⟩ := expand_eq_ok.1 h
  unfold rename
  by_cases hempty : m.isEmpty
  · refine ⟨k, by simp [hempty]; rfl, rfl, ?_⟩
    have hsame (x : Expr) : x.renameCalls m = x :=
      Expr.renameCalls_of_get?_eq_none fun d _ => get?_of_isEmpty hempty d
    simp only [funext (mapExpressions_of_eq_self hsame), List.map_id']
    exact h
  · have hsquare (i j : Instruction)
        (hij : i.Maps (fun x y => x.expand k.rules = .ok y) j) :
        ∃ c, i.Maps (fun x y => x.rename k.rules m = .ok y) c ∧
          c.Maps (fun y z => y.expand k.rules = .ok z) (j.mapExpressions (Expr.renameCalls m)) :=
      hij.square fun x y hxy => Expr.rename_spec hm hxy
    obtain ⟨is, his, hjs⟩ := forall₂_square hes hsquare
    refine ⟨{ k with instructions := is }, ?_, rfl, expand_eq_ok.2 ⟨_, hjs, rfl⟩⟩
    have hrename := mapM_eq_ok.2 (his.imp fun _ _ => Instruction.mapExpressionsM_eq_ok.2)
    simp only [hempty, Bool.false_eq_true, if_false, hrename]
    rfl

/-- A kernel that has its types filled in and its recorded calls renamed expands to the expansion
with the same done to it; all else stays. -/
theorem rename_withTypes_spec (hm : m.Normal k.rules) (h : k.expand = .ok e)
    (types : List (String × ElementType)) :
    ∃ k', (k.withTypes types).rename m = .ok k' ∧
      k' = { k.withTypes types with instructions := k'.instructions } ∧
      k'.expand = .ok { e.withTypes types with
        instructions := e.instructions.map (·.mapExpressions (Expr.renameCalls m)) } := by
  rw [← rules_withTypes k types] at hm
  have hspec := rename_spec hm (expand_withTypes h types)
  rwa [instructions_withTypes] at hspec

end Kernel

/-! ### Completeness -/

/-- What is wrong with a call that is not recorded. -/
def Table.openFault? (t : Table) (m : Renames) (kernel instruction : String) (call : Expr) :
    Option Fault :=
  if m.contains call then none else t.callFault? kernel instruction call

/-- Nothing is wrong with a recorded call whose entry is in the table; with any other, what was. -/
theorem callFault?_renameCalls {t : Table} {m : Renames}
    (ht : ∀ call name, m.get? call = some name → t.contains name = true)
    (kernel instruction : String) {call : Expr} (hcall : call.isCall = true) :
    t.callFault? kernel instruction (call.renameCalls m) =
      t.openFault? m kernel instruction call := by
  rw [Expr.renameCalls_eq]
  cases call with
  | call callee args keywords =>
    cases hname : m.get? (.call callee args keywords) with
    | some name =>
      have := ht _ name hname
      simp [Table.openFault?, Renames.contains, hname, Expr.pointTo, Expr.withCallee,
        Expr.mapChildren, Expr.withChildren, Table.callFault?, this]
    | none =>
      simp only [Table.openFault?, Renames.contains, hname, Expr.pointTo, Expr.mapChildren,
        Expr.withChildren]
      cases callee <;> rfl
  | _ => cases hcall

theorem findSome?_congr {α β : Type} {f g : α → Option β} {xs : List α}
    (h : ∀ x ∈ xs, f x = g x) : xs.findSome? f = xs.findSome? g := by
  induction xs with
  | nil => rfl
  | cons x xs ih =>
    rw [List.findSome?_cons, List.findSome?_cons, h x (by simp), ih fun y hy => h y (by simp [hy])]

namespace Kernel

/-- The calls of an expanded kernel that refer to no entry, but for those that are recorded. -/
def openFault? (e : Kernel) (m : Renames) (t : Table) : Option Fault :=
  e.instructions.findSome? fun i =>
    (i.expressions.flatMap Expr.calls).findSome? (t.openFault? m e.name i.id)

/-- A renamed kernel is complete if its expansion was but for the recorded calls. -/
theorem checkFunctionsResolved_eq {k' e : Kernel} {m : Renames} {t : Table}
    (ht : ∀ call name, m.get? call = some name → t.contains name = true)
    (hname : k'.name = e.name)
    (hk' : k'.expand =
      .ok { e with instructions := e.instructions.map (·.mapExpressions (Expr.renameCalls m)) }) :
    k'.checkFunctionsResolved t =
      match e.openFault? m t with
      | some f => .error f
      | none => .ok () := by
  unfold checkFunctionsResolved openFault?
  rw [hk', ok_bind]
  have hfault (i : Instruction) :
      ((i.mapExpressions (Expr.renameCalls m)).expressions.flatMap Expr.calls).findSome?
          (t.callFault? k'.name (i.mapExpressions (Expr.renameCalls m)).id) =
        (i.expressions.flatMap Expr.calls).findSome? (t.openFault? m e.name i.id) := by
    rw [Instruction.expressions_mapExpressions, Instruction.id_mapExpressions, List.flatMap_map,
      hname]
    simp only [Expr.calls_renameCalls]
    rw [← List.map_flatMap, List.findSome?_map]
    refine findSome?_congr fun call hcall => ?_
    obtain ⟨x, -, hcall⟩ := List.mem_flatMap.1 hcall
    exact callFault?_renameCalls ht e.name i.id (Expr.mem_calls.1 hcall).2
  simp only [List.findSome?_map, Function.comp_def, hfault]
  cases e.instructions.findSome? fun i =>
    (i.expressions.flatMap Expr.calls).findSome? (t.openFault? m e.name i.id) <;> rfl

/-- Filling in types leaves the same calls open. -/
theorem checkFunctionsResolved_rename_withTypes {k k' e : Kernel} {m : Renames} {t : Table}
    (hm : m.Normal k.rules) (he : k.expand = .ok e)
    (ht : ∀ call name, m.get? call = some name → t.contains name = true)
    {types : List (String × ElementType)} (hk' : (k.withTypes types).rename m = .ok k') :
    k'.checkFunctionsResolved t =
      match e.openFault? m t with
      | some f => .error f
      | none => .ok () := by
  obtain ⟨typed, htyped, hsame, hexpand⟩ := rename_withTypes_spec hm he types
  obtain rfl := Except.ok.inj (htyped.symm.trans hk')
  have hname : typed.name = (e.withTypes types).name := by
    rw [hsame, name_withTypes, name_withTypes, name_of_expand he]
  have hfault : (e.withTypes types).openFault? m t = e.openFault? m t := by
    unfold openFault?
    rw [instructions_withTypes, name_withTypes]
  rw [← instructions_withTypes e types] at hexpand
  rw [checkFunctionsResolved_eq ht hname hexpand, hfault]

/-- Complete is a kernel if every call of its expansion refers to an entry of the table. -/
theorem checkFunctionsResolved_eq_ok {k : Kernel} {t : Table} :
    k.checkFunctionsResolved t = .ok () ↔
      ∃ e, k.expand = .ok e ∧ ∀ i ∈ e.instructions, ∀ x ∈ i.expressions, ∀ call ∈ x.calls,
        ∃ name, call.callee? = some (.entry name) ∧ t.contains name = true := by
  have hcall (kernel instruction : String) {x call : Expr} (hcall : call ∈ x.calls) :
      t.callFault? kernel instruction call = none ↔
        ∃ name, call.callee? = some (.entry name) ∧ t.contains name = true := by
    have hcall := (Expr.mem_calls.1 hcall).2
    cases call with
    | call callee args keywords =>
      cases callee with
      | bare name => simp [Table.callFault?, Expr.callee?]
      | entry name => simp [Table.callFault?, Expr.callee?]
    | _ => cases hcall
  unfold checkFunctionsResolved
  rw [bind_eq_ok]
  refine exists_congr fun e => and_congr_right fun _ => ?_
  dsimp only
  have hnone : (e.instructions.findSome? fun i =>
      (i.expressions.flatMap Expr.calls).findSome? (t.callFault? k.name i.id)) = none ↔
      ∀ i ∈ e.instructions, ∀ x ∈ i.expressions, ∀ call ∈ x.calls,
        ∃ name, call.callee? = some (.entry name) ∧ t.contains name = true := by
    simp only [List.findSome?_eq_none_iff, List.mem_flatMap]
    constructor
    · exact fun h i hi x hx call hc => (hcall _ _ hc).1 (h i hi call ⟨x, hx, hc⟩)
    · rintro h i hi call ⟨x, hx, hc⟩
      exact (hcall _ _ hc).2 (h i hi x hx call hc)
  rw [← hnone]
  cases e.instructions.findSome? fun i =>
      (i.expressions.flatMap Expr.calls).findSome? (t.callFault? k.name i.id) with
  | none => exact iff_of_true rfl rfl
  | some f => exact iff_of_false (by simp) (by simp)

/-- A complete kernel stays complete when the table grows. -/
theorem checkFunctionsResolved_grows {k : Kernel} {t u : Table}
    (h : k.checkFunctionsResolved t = .ok ()) (hgrows : t.Grows u) :
    k.checkFunctionsResolved u = .ok () := by
  obtain ⟨e, he, h⟩ := checkFunctionsResolved_eq_ok.1 h
  refine checkFunctionsResolved_eq_ok.2 ⟨e, he, fun i hi x hx call hcall => ?_⟩
  obtain ⟨name, hname, hcontains⟩ := h i hi x hx call hcall
  exact ⟨name, hname, hgrows.contains hcontains⟩

end Kernel

end KernelTyping
