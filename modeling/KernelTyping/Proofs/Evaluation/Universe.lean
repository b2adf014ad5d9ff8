import KernelTyping.Proofs.Evaluation.Environment
import KernelTyping.Proofs.Outcome
import Mathlib.Data.Set.Finite.Lattice

/-!
# KernelTyping.Proofs.Evaluation.Universe — which types an evaluation can give

Without calls, the type of an expression is a scalar, a type that a variable or a cast of it has, or
a field of one of these (`eval_mem`).  So there are only finitely many (`finite_parts`,
`finite_visits`).
-/

namespace KernelTyping

namespace ElementType

/-! ### Parts of a type -/

/-- The type itself, its fields, and in turn those of its fields. -/
inductive Part (t : ElementType) : ElementType → Prop where
  | self : Part t t
  | field {u f : ElementType} {name : String} : Part t u → u.field? name = some f → Part t f

theorem mem_of_field? {t f : ElementType} {name : String} (h : t.field? name = some f) :
    ∃ structName fields, t = .struct structName fields ∧ (name, f) ∈ fields := by
  cases t with
  | struct structName fields =>
    obtain ⟨entry, hentry, rfl⟩ := Option.map_eq_some_iff.1 h
    have hname : entry.1 = name := by simpa using List.find?_some hentry
    exact ⟨structName, fields, rfl, hname ▸ List.mem_of_find?_eq_some hentry⟩
  | scalar _ | handle _ => cases h

theorem part_struct {structName : String} {fields : List (String × ElementType)} {u : ElementType}
    (h : Part (.struct structName fields) u) :
    u = .struct structName fields ∨ ∃ entry ∈ fields, Part entry.2 u := by
  induction h with
  | self => exact .inl rfl
  | field _ hf ih =>
    rcases ih with rfl | ⟨entry, hentry, hpart⟩
    · obtain ⟨_, _, heq, hmem⟩ := mem_of_field? hf
      obtain ⟨rfl, rfl⟩ := struct.inj heq
      exact .inr ⟨_, hmem, .self⟩
    · exact .inr ⟨entry, hentry, hpart.field hf⟩

theorem eq_of_part {t u : ElementType} (h : Part t u) (ht : ∀ name, t.field? name = none) :
    u = t := by
  induction h with
  | self => rfl
  | field _ hf ih =>
    rw [ih, ht] at hf
    cases hf

theorem finite_parts (t : ElementType) : {u | Part t u}.Finite := by
  cases t with
  | scalar s => exact (Set.finite_singleton (scalar s)).subset fun u h => eq_of_part h fun _ => rfl
  | handle name =>
    exact (Set.finite_singleton (handle name)).subset fun u h => eq_of_part h fun _ => rfl
  | struct structName fields =>
    have hfields : (⋃ entry ∈ {entry | entry ∈ fields}, {u | Part entry.2 u}).Finite :=
      (List.finite_toSet fields).biUnion fun entry hentry => finite_parts entry.2
    refine (hfields.insert (.struct structName fields)).subset fun u hu => ?_
    rcases part_struct hu with rfl | ⟨entry, hentry, hpart⟩
    · exact .inl rfl
    · exact .inr (Set.mem_biUnion hentry hpart)
termination_by t
decreasing_by
  have hlt := List.sizeOf_lt_of_mem (show entry ∈ fields from hentry)
  obtain ⟨name, f⟩ := entry
  simp only [Prod.mk.sizeOf_spec, struct.sizeOf_spec] at hlt ⊢
  omega

/-- A set of types that no operation leaves: all scalars are in it, and with a type its fields. -/
structure Closed (U : ElementType → Prop) : Prop where
  scalar (s : Scalar) : U (.scalar s)
  field {t f : ElementType} {name : String} : U t → t.field? name = some f → U f

/-- The parts of the scalars and of the types in a set. -/
def Parts (S : Set ElementType) (u : ElementType) : Prop :=
  (∃ s, u = .scalar s) ∨ ∃ t ∈ S, Part t u

theorem closed_parts (S : Set ElementType) : Closed (Parts S) where
  scalar s := .inl ⟨s, rfl⟩
  field := by
    rintro t f name (⟨s, rfl⟩ | ⟨u, hu, ht⟩) hf
    · cases hf
    · exact .inr ⟨u, hu, ht.field hf⟩

theorem finite_closure {S : Set ElementType} (hS : S.Finite) : {u | Parts S u}.Finite := by
  have hscalars : {u | u ∈ Scalar.all.map ElementType.scalar}.Finite := List.finite_toSet _
  refine (hscalars.union (hS.biUnion fun t _ => finite_parts t)).subset ?_
  rintro u (⟨s, rfl⟩ | ⟨t, ht, hu⟩)
  · exact .inl (List.mem_map_of_mem (Scalar.mem_all s))
  · exact .inr (Set.mem_biUnion ht hu)

/-! ### Operations -/

namespace Closed

variable {U : ElementType → Prop} (hU : Closed U)

include hU

theorem promote {a b c : ElementType} (ha : U a) (hb : U b) (h : a.promote b = .ok c) : U c := by
  unfold ElementType.promote at h
  split at h
  · rw [← Except.ok.inj h]
    exact hU.scalar _
  · rwa [← Except.ok.inj h]
  · rwa [← Except.ok.inj h]
  · split at h
    · rwa [← Except.ok.inj h]
    · cases h

theorem combine {operands : List (Option ElementType)} {t : ElementType}
    (hoperands : ∀ u, some u ∈ operands → U u)
    (h : ElementType.combine operands = .ok (some t)) : U t := by
  have hknown : ∀ u ∈ operands.filterMap id, U u := fun u hu => hoperands u (by simpa using hu)
  unfold ElementType.combine at h
  split at h
  case h_1 => cases h
  case h_2 first rest heq =>
    rw [heq] at hknown
    obtain ⟨hfirst, hrest⟩ := List.forall_mem_cons.1 hknown
    split at h
    · split at h
      · rwa [← Option.some.inj (Except.ok.inj h)]
      · cases h
    · have hfold (a : ElementType) (ha : U a) (xs : List ElementType) (hxs : ∀ x ∈ xs, U x)
          (b : ElementType) (hb : xs.foldlM ElementType.promote a = .ok b) : U b := by
        induction xs generalizing a with
        | nil => rwa [← Except.ok.inj hb]
        | cons x xs ih =>
          rw [List.foldlM_cons] at hb
          obtain ⟨c, hc, hb⟩ := bind_eq_ok.1 hb
          exact ih c (hU.promote ha (hxs x (by simp)) hc) (fun y hy => hxs y (by simp [hy])) hb
      cases hfolded : rest.foldlM ElementType.promote first with
      | error f =>
        rw [hfolded] at h
        cases h
      | ok b =>
        rw [hfolded] at h
        rw [← Option.some.inj (Except.ok.inj h)]
        exact hfold first hfirst rest hrest b hfolded

theorem constant {c : Constant} {t : ElementType} (h : c.type = .ok t) : U t := by
  unfold Constant.type at h
  split at h
  case h_4 =>
    unfold intType at h
    split at h
    · rw [← Except.ok.inj h]
      exact hU.scalar _
    · split at h
      · rw [← Except.ok.inj h]
        exact hU.scalar _
      · cases h
  case h_6 =>
    split at h
    · rw [← Except.ok.inj h]
      exact hU.scalar _
    · cases h
  all_goals
    rw [← Except.ok.inj h]
    exact hU.scalar _

theorem nary {op : NaryOp} {operands : List (Expr × Option ElementType)} {t : ElementType}
    (hoperands : ∀ u, some u ∈ operands.map (·.2) → U u) (h : op.type operands = .ok (some t)) :
    U t := by
  have hfilter (p : Expr × Option ElementType → Bool) (u : ElementType)
      (hu : some u ∈ (operands.filter p).map (·.2)) : U u :=
    hoperands u (List.map_subset _ (List.filter_subset_self _) hu)
  have hsum (h : sumType operands = .ok (some t)) : U t := by
    refine hU.combine (fun u hu => ?_) h
    split at hu
    · rcases List.mem_append.1 hu with hu | hu
      · exact hfilter _ u hu
      · exact hfilter _ u hu
    · exact hfilter _ u hu
  have htruth (h : Except.ok (some truth) = (Except.ok (some t) : Except Fault _)) : U t := by
    rw [← Option.some.inj (Except.ok.inj h)]
    exact hU.scalar _
  cases op with
  | sum | product => exact hsum h
  | bitAnd | bitOr | bitXor | min | max => exact hU.combine hoperands h
  | and | or => exact htruth h

theorem binary {op : BinaryOp} {left right : Option ElementType} {t : ElementType}
    (hoperands : ∀ u, some u ∈ [left, right] → U u) (h : op.type left right = .ok (some t)) :
    U t := by
  cases op with
  | quotient =>
    rw [BinaryOp.type] at h
    split at h
    · rw [← Option.some.inj (Except.ok.inj h)]
      exact hU.scalar _
    · exact hU.combine hoperands h
  | floorDiv | remainder | power | shiftLeft | shiftRight => exact hU.combine hoperands h
  | compare c =>
    rw [← Option.some.inj (Except.ok.inj h)]
    exact hU.scalar _

theorem fieldType {aggregate : Expr} {type t : ElementType} {field : String} (htype : U type)
    (h : KernelTyping.fieldType aggregate type field = .ok t) : U t := by
  unfold KernelTyping.fieldType at h
  split at h
  · split at h
    case h_1 hfield => exact Except.ok.inj h ▸ hU.field htype hfield
    case h_2 => cases h
  · cases h

end Closed

end ElementType

namespace Evaluation

variable {ctx : Context} {U : ElementType → Prop} {V W : Expr → Prop}

/-! ### Types of an expression -/

/-- The visited nodes take types of a set from outside, and none of them is a call. -/
structure Supplies (U : ElementType → Prop) (ctx : Context) (V : Expr → Prop) : Prop where
  index : U ctx.kernel.indexType
  symbol {name : String} {symbol : Symbol} :
    V (.var name) → ctx.kernel.symbol? ctx.target name = some symbol → U symbol.type
  found {name : String} {type : ElementType} : ctx.env[name]? = some type → U type
  declared {name : String} {v : Variable} {type : ElementType} :
    ctx.kernel.findVariable? name = some v → v.dtype.known? = some type → U type
  cast {type : ElementType} {e : Expr} : V (.cast type e) → U type
  call {callee : Callee} {args : List Expr} {keywords : List (String × Expr)} :
    ¬V (.call callee args keywords)

theorem Supplies.mono (h : Supplies U ctx V) (hV : ∀ e, W e → V e) : Supplies U ctx W where
  index := h.index
  symbol hW := h.symbol (hV _ hW)
  found := h.found
  declared := h.declared
  cast hW := h.cast (hV _ hW)
  call hW := h.call (hV _ hW)

variable {s s' : State} {t : ElementType}

theorem variableType_mem (h : Supplies U ctx V) {name : String} (hname : V (.var name))
    (hexec : exec (variableType ctx name) s = (.ok (some t), s')) : U t := by
  have hsome {t u : ElementType} {s s' : State}
      (h : exec (pure (some u)) s = (.ok (some t), s')) : u = t :=
    Option.some.inj (eq_of_exec_pure h)
  unfold variableType at hexec
  split at hexec
  · exact hsome hexec ▸ h.index
  · split at hexec
    case h_1 symbol hsymbol => exact hsome hexec ▸ h.symbol hname hsymbol
    case h_2 =>
      split at hexec
      case h_1 type htype => exact hsome hexec ▸ h.found htype
      case h_2 =>
        split at hexec
        case h_1 v hv =>
          split at hexec
          · obtain ⟨hknown, -⟩ := Prod.mk.inj hexec
            exact h.declared hv (Except.ok.inj hknown)
          · obtain ⟨hknown, -⟩ := Prod.mk.inj hexec
            exact h.declared hv (Except.ok.inj hknown)
        case h_2 =>
          split at hexec
          · exact hsome hexec ▸ h.index
          · cases hexec

/-- Where all is known, the types are those that are known. -/
theorem map_some_of_mapM_id {types : List (Option ElementType)} {args : List ElementType}
    (h : types.mapM id = some args) : args.map some = types := by
  induction types generalizing args with
  | nil =>
    obtain rfl := Option.some.inj h
    rfl
  | cons type types ih =>
    rw [List.mapM_cons] at h
    obtain ⟨a, ha, h⟩ : ∃ a, type = some a ∧ (types.mapM id >>= fun as => some (a :: as)) =
        some args := Option.bind_eq_some_iff.1 h
    obtain ⟨as, has, h⟩ := Option.bind_eq_some_iff.1 h
    rw [← Option.some.inj h, List.map_cons, ih has, ha]

theorem reductionResults_mem {op : ReductionOp} {args : Option (List ElementType)}
    {results : List ElementType} (hargs : ∀ us, args = some us → ∀ u ∈ us, U u)
    (h : exec (reductionResults op args) s = (.ok (some results), s')) : ∀ u ∈ results, U u := by
  cases args with
  | none => cases h
  | some args =>
    obtain ⟨results', m, hresults, h⟩ := exec_bind_eq_ok.1 h
    rw [← Option.some.inj (eq_of_exec_pure h)]
    have hresults := eq_ok_of_exec_lift hresults
    have hargs := hargs args rfl
    unfold ReductionOp.resultTypes at hresults
    split at hresults
    · rwa [← Except.ok.inj hresults]
    · split at hresults
      · rwa [← Except.ok.inj hresults]
      · cases hresults
    · cases hresults

theorem mem_of_mapM_id {types : List (Option ElementType)} (h : ∀ u, some u ∈ types → U u)
    (us : List ElementType) (hus : types.mapM id = some us) : ∀ u ∈ us, U u :=
  fun u hu => h u (map_some_of_mapM_id hus ▸ List.mem_map_of_mem hu)

theorem conclude_mem (hU : ElementType.Closed U) (h : Supplies U ctx V) {e : Expr} (he : V e)
    {types : List (Option ElementType)} (htypes : ∀ u, some u ∈ types → U u)
    (hexec : exec (conclude ctx e types) s = (.ok (some t), s')) : U t := by
  cases e with
  | constant c =>
    obtain ⟨type, m, htype, h⟩ := exec_bind_eq_ok.1 hexec
    rw [← Option.some.inj (eq_of_exec_pure h)]
    exact hU.constant (eq_ok_of_exec_lift htype)
  | var name => exact variableType_mem h he hexec
  | hardware i => exact Option.some.inj (eq_of_exec_pure hexec) ▸ h.index
  | nary op es =>
    refine hU.nary (fun u hu => htypes u ?_) (eq_ok_of_exec_lift hexec)
    obtain ⟨⟨e, _⟩, hmem, rfl⟩ := List.mem_map.1 hu
    exact (List.of_mem_zip hmem).2
  | binary op l r =>
    match types, htypes, hexec with
    | [left, right], htypes, hexec => exact hU.binary htypes (eq_ok_of_exec_lift hexec)
    | [], _, hexec | [_], _, hexec | _ :: _ :: _ :: _, _, hexec => cases eq_of_exec_pure hexec
  | not e =>
    rw [← Option.some.inj (eq_of_exec_pure hexec)]
    exact hU.scalar _
  | ite c t f =>
    match types, htypes, hexec with
    | [_, onTrue, onFalse], htypes, hexec =>
      refine hU.combine (fun u hu => htypes u ?_) (eq_ok_of_exec_lift hexec)
      exact List.mem_cons_of_mem _ hu
    | [], _, hexec | [_], _, hexec | [_, _], _, hexec | _ :: _ :: _ :: _ :: _, _, hexec =>
      cases eq_of_exec_pure hexec
  | subscript _ _ | linearSubscript _ _ | view _ _ =>
    match types, htypes, hexec with
    | [type], htypes, hexec => exact htypes t (by simp [eq_of_exec_pure hexec])
    | [], _, hexec | _ :: _ :: _, _, hexec => cases eq_of_exec_pure hexec
  | lookup a field =>
    match types, htypes, hexec with
    | [some type], htypes, hexec =>
      obtain ⟨fieldType, m, hfield, h⟩ := exec_bind_eq_ok.1 hexec
      rw [← Option.some.inj (eq_of_exec_pure h)]
      exact hU.fieldType (htypes type (by simp)) (eq_ok_of_exec_lift hfield)
    | [none], _, hexec | [], _, hexec | none :: _ :: _, _, hexec | some _ :: _ :: _, _, hexec =>
      cases eq_of_exec_pure hexec
  | cast target e =>
    match types, htypes, hexec with
    | [none], _, hexec => cases hexec
    | [some source], _, hexec =>
      obtain ⟨type, m, htype, hexec⟩ := exec_bind_eq_ok.1 hexec
      have htype := eq_ok_of_exec_lift htype
      unfold castType at htype
      split at htype
      · rw [← Option.some.inj (eq_of_exec_pure hexec), ← Except.ok.inj htype]
        exact h.cast he
      · cases htype
    | [], _, hexec | none :: _ :: _, _, hexec | some _ :: _ :: _, _, hexec =>
      cases eq_of_exec_pure hexec
  | call callee args keywords => exact absurd he h.call
  | reduction op _ _ | tupleReduction op _ _ =>
    rw [conclude] at hexec
    split at hexec
    · cases hexec
    · obtain ⟨results, m, hresults, hexec⟩ := exec_bind_eq_ok.1 hexec
      have hhead : results.bind List.head? = some t := eq_of_exec_pure hexec
      obtain ⟨results, rfl, hhead⟩ := Option.bind_eq_some_iff.1 hhead
      exact reductionResults_mem (mem_of_mapM_id htypes) hresults t (List.mem_of_mem_head? hhead)

theorem mapM_mem {α : Type} {f : α → Eval (Option ElementType)} {xs : List α}
    {types : List (Option ElementType)} (hxs : ∀ x ∈ xs, ∀ {s s' : State} {t : ElementType},
      exec (f x) s = (.ok (some t), s') → U t)
    (h : exec (xs.mapM f) s = (.ok types, s')) : ∀ u, some u ∈ types → U u := by
  induction xs generalizing s s' types with
  | nil =>
    rw [List.mapM_nil] at h
    rw [← eq_of_exec_pure h]
    exact nofun
  | cons x xs ih =>
    rw [List.mapM_cons] at h
    obtain ⟨type, m, hx, h⟩ := exec_bind_eq_ok.1 h
    obtain ⟨types, r, htypes, h⟩ := exec_bind_eq_ok.1 h
    rw [← eq_of_exec_pure h]
    intro u hu
    rcases List.mem_cons.1 hu with rfl | hu
    · exact hxs x (by simp) hx
    · exact ih (fun x hx => hxs x (by simp [hx])) htypes u hu

/-- The type of an expression comes from the same set as those of its leaves. -/
theorem eval_mem (hU : ElementType.Closed U) (e : Expr) (h : Supplies U ctx (Visits e))
    {s s' : State} {t : ElementType} (hexec : exec (eval ctx e) s = (.ok (some t), s')) : U t := by
  rw [eval_eq] at hexec
  obtain ⟨types, m, htypes, hexec⟩ := exec_bind_eq_ok.1 hexec
  refine conclude_mem hU h (.self e) (mapM_mem (fun c hc _ _ _ hexec => ?_) htypes) hexec
  exact eval_mem hU c (h.mono fun d hd => .operand hc hd) hexec
termination_by e.size
decreasing_by exact size_lt_of_mem_operands hc

theorem concludeTuple_mem {e : Expr} (he : tupleCall? e = none)
    {types : List (Option ElementType)} {results : List ElementType}
    (htypes : ∀ u, some u ∈ types → U u)
    (hexec : exec (concludeTuple ctx e types) s = (.ok (some results), s')) :
    ∀ u ∈ results, U u := by
  induction e using Expr.inductionOnChildren generalizing results s' with
  | step e ih =>
    cases e with
    | call callee args keywords => cases he
    | reduction op inames body =>
      rw [concludeTuple] at hexec
      rw [tupleCall?] at he
      split at hexec
      case isTrue hop =>
        split at hexec
        case isTrue hbody =>
          obtain ⟨args, m, hargs, hexec⟩ := exec_bind_eq_ok.1 hexec
          rw [hop, hbody] at he
          refine reductionResults_mem (fun us hus => ?_) hexec
          exact ih body (by simp [Expr.children]) he (hus ▸ hargs)
        case isFalse => cases hexec
      case isFalse => cases hexec
    | tupleReduction op inames bodies =>
      rw [concludeTuple] at hexec
      split at hexec
      · exact reductionResults_mem (mem_of_mapM_id htypes) hexec
      · cases hexec
    | _ => cases hexec

theorem evalTuple_mem (hU : ElementType.Closed U) (e : Expr)
    (h : Supplies U ctx (VisitsValue true e)) {results : List ElementType}
    (hexec : exec (evalTuple ctx e) s = (.ok (some results), s')) : ∀ u ∈ results, U u := by
  rw [evalTuple_eq] at hexec
  obtain ⟨types, m, htypes, hexec⟩ := exec_bind_eq_ok.1 hexec
  have hcall : tupleCall? e = none := by
    cases hcall : tupleCall? e with
    | none => rfl
    | some call =>
      obtain ⟨callee, args, keywords, rfl⟩ := exists_of_tupleCall? hcall
      exact absurd (.call hcall) h.call
  refine concludeTuple_mem hcall (mapM_mem (fun c hc _ _ _ hexec => ?_) htypes) hexec
  exact eval_mem hU c (h.mono fun d hd => .tuple hc hd) hexec

/-! ### Finitely many nodes -/

theorem finite_visits (e : Expr) : {d | Visits e d}.Finite := by
  have hoperands : (⋃ c ∈ {c | c ∈ operands e}, {d | Visits c d}).Finite :=
    (List.finite_toSet (operands e)).biUnion fun c hc => finite_visits c
  refine (hoperands.insert e).subset fun d hd => ?_
  cases hd with
  | self => exact .inl rfl
  | operand hc hd => exact .inr (Set.mem_biUnion hc hd)
termination_by e.size
decreasing_by exact size_lt_of_mem_operands hc

theorem finite_visitsValue (tuple : Bool) (e : Expr) : {d | VisitsValue tuple e d}.Finite := by
  have hoperands : (⋃ c ∈ {c | c ∈ tupleOperands e}, {d | Visits c d}).Finite :=
    (List.finite_toSet (tupleOperands e)).biUnion fun c _ => finite_visits c
  have hcall : {d | tupleCall? e = some d}.Finite :=
    (List.finite_toSet (tupleCall? e).toList).subset fun d hd => by
      simp [show tupleCall? e = some d from hd]
  refine ((finite_visits e).union (hoperands.union hcall)).subset fun d hd => ?_
  cases hd with
  | single h => exact .inl h
  | tuple hc h => exact .inr (.inl (Set.mem_biUnion hc h))
  | call h => exact .inr (.inr h)

end Evaluation

end KernelTyping
