import Mathlib
import KernelTyping.Inference.Basic
import KernelTyping.Proofs.ElementType.Combination
import KernelTyping.Proofs.Evaluation.Operands
import KernelTyping.Proofs.Instruction
import KernelTyping.Target.CLike

/-!
# KernelTyping.Proofs.Evaluation.Operators — what operators make of their operands

* Small integer literals stand last in a sum or product.  They take part as all operands do if the
  others are integers as far as they are known; where one of these is not, they are left out, which
  changes nothing only if each of them is absorbed (`sum_eq_combine_iff`).
* Nothing is known of a sum exactly if nothing is known of an operand (`sumType_eq_ok_none_iff`), as
  for other operators; but something is known of every quotient (`quotient_type_ne_none`).  So an
  expression of variables without a type has none either, unless it divides (`eval_untyped`).
-/

namespace KernelTyping

open Evaluation

namespace Evaluation

variable {ctx : Context}

/-! ### Operands one after the other -/

/-- Each result of a list of evaluations is what its element gives from some state. -/
theorem forall₂_of_exec_mapM {α β : Type} {f : α → Eval β} {xs : List α} {ys : List β}
    {s m : State} (h : exec (xs.mapM f) s = (.ok ys, m)) :
    List.Forall₂ (fun x y => ∃ r r', exec (f x) r = (.ok y, r')) xs ys := by
  induction xs generalizing s ys m with
  | nil =>
    obtain rfl := eq_of_exec_pure h
    exact .nil
  | cons x xs ih =>
    rw [List.mapM_cons] at h
    obtain ⟨y, r, hx, h⟩ := exec_bind_eq_ok.1 h
    obtain ⟨ys', r', hxs, h⟩ := exec_bind_eq_ok.1 h
    obtain rfl := eq_of_exec_pure h
    exact .cons ⟨s, r, hx⟩ (ih hxs)

/-! ### Small literals -/

/-- The types of the operands that are no small integer literals, in order. -/
def otherTypes (operands : List (Expr × Option ElementType)) : List (Option ElementType) :=
  (operands.filter (!·.1.isSmallInt)).map (·.2)

/-- The types of the small integer literals among the operands, in order. -/
def smallTypes (operands : List (Expr × Option ElementType)) : List (Option ElementType) :=
  (operands.filter (·.1.isSmallInt)).map (·.2)

theorem sumType_eq (operands : List (Expr × Option ElementType)) :
    sumType operands = ElementType.combine
      (if knownAllIntegral (otherTypes operands) then otherTypes operands ++ smallTypes operands
        else otherTypes operands) := rfl

theorem knownAllIntegral_iff {types : List (Option ElementType)} :
    knownAllIntegral types = true ↔ ∀ type, some type ∈ types → type.isIntegral = true := by
  simp only [knownAllIntegral, List.all_eq_true, List.mem_filterMap, id_eq]
  constructor
  · exact fun h type htype => h type ⟨_, htype, rfl⟩
  · rintro h type ⟨_, htype, rfl⟩
    exact h type htype

theorem mem_otherTypes_or_smallTypes {operands : List (Expr × Option ElementType)}
    {type? : Option ElementType} :
    type? ∈ otherTypes operands ∨ type? ∈ smallTypes operands ↔ ∃ o ∈ operands, o.2 = type? := by
  unfold otherTypes smallTypes
  simp only [List.mem_map, List.mem_filter, ← exists_or, ← or_and_right, ← and_or_left]
  simp

/-- Nothing is known of a sum exactly if nothing is known of any operand. -/
theorem sumType_eq_ok_none_iff {operands : List (Expr × Option ElementType)} :
    sumType operands = .ok none ↔ ∀ o ∈ operands, o.2 = none := by
  rw [sumType_eq, ElementType.combine_eq_ok_none_iff]
  constructor
  · intro h o ho
    have hothers : ∀ type? ∈ otherTypes operands, type? = none := by
      split at h
      · exact fun type? htype => h type? (by simp [htype])
      · exact h
    have hintegral : knownAllIntegral (otherTypes operands) = true :=
      knownAllIntegral_iff.2 fun type htype => nomatch hothers _ htype
    rw [if_pos hintegral] at h
    exact h _ (List.mem_append.2 (mem_otherTypes_or_smallTypes.2 ⟨o, ho, rfl⟩))
  · intro h type? htype
    have hmem : type? ∈ otherTypes operands ∨ type? ∈ smallTypes operands := by
      split at htype
      · exact List.mem_append.1 htype
      · exact .inl htype
    obtain ⟨o, ho, rfl⟩ := mem_otherTypes_or_smallTypes.1 hmem
    exact h o ho

/-- Something is known of any quotient. -/
theorem quotient_type_ne_none (left right : Option ElementType) :
    BinaryOp.quotient.type left right ≠ .ok none := by
  unfold BinaryOp.type
  dsimp only
  split
  case isTrue => exact nofun
  case isFalse hnot =>
    rw [ne_eq, ElementType.combine_eq_ok_none_iff]
    intro hnone
    exact hnot (knownAllIntegral_iff.2 fun type htype => nomatch hnone _ htype)

theorem exists_scalar_of_isSmallInt {e : Expr} {type? : Option ElementType} {s m : State}
    (he : e.isSmallInt = true) (h : exec (eval ctx e) s = (.ok type?, m)) :
    ∃ u, type? = some (.scalar u) := by
  match e, he with
  | .constant (.int value (some u)), _ =>
    rw [eval_constant] at h
    exact ⟨u, (eq_of_exec_pure h).symm⟩
  | .constant (.int value none), he =>
    have hsmall : value.natAbs < 1024 := of_decide_eq_true he
    have htype : (Constant.int value none).type = .ok .int32 := by
      have hmin : Int32.minValue.toInt = -2147483648 := rfl
      have hmax : Int32.maxValue.toInt = 2147483647 := rfl
      rw [Constant.type, intType, if_pos (by omega)]
    rw [eval_constant, htype] at h
    exact ⟨.int32, (eq_of_exec_pure h).symm⟩

/-- The small literals of a sum have scalar types. -/
theorem exists_smallTypes_eq {es : List Expr} {types : List (Option ElementType)} {s m : State}
    (h : exec (es.mapM (eval ctx)) s = (.ok types, m)) :
    ∃ ss : List Scalar, smallTypes (es.zip types) = ss.map (some ∘ ElementType.scalar) := by
  replace h := forall₂_of_exec_mapM h
  induction h with
  | nil => exact ⟨[], rfl⟩
  | @cons e type? es types he _ ih =>
    obtain ⟨r, r', he⟩ := he
    obtain ⟨ss, ih⟩ := ih
    cases hsmall : e.isSmallInt with
    | false => exact ⟨ss, by simpa [smallTypes, hsmall] using ih⟩
    | true =>
      obtain ⟨u, rfl⟩ := exists_scalar_of_isSmallInt hsmall he
      exact ⟨u :: ss, by simpa [smallTypes, hsmall] using ih⟩

/-- **Where small literals count.**  A sum or product has the type, or the fault, that all its
operands combine to with the small literals behind the others, exactly if each other operand with a
known type is an integer or each small literal by itself would change nothing behind them. -/
theorem sum_eq_combine_iff {op : NaryOp} (hop : op = .sum ∨ op = .product) {es : List Expr}
    {types : List (Option ElementType)} {s m : State}
    (hoperands : exec (es.mapM (eval ctx)) s = (.ok types, m)) :
    let others := otherTypes (es.zip types)
    let small := smallTypes (es.zip types)
    exec (eval ctx (.nary op es)) s = exec (liftM (ElementType.combine (others ++ small))) m ↔
      (∀ type, some type ∈ others → type.isIntegral = true) ∨
        ∀ literal ∈ small,
          ElementType.combine (others ++ [literal]) = ElementType.combine others := by
  intro others small
  have htype : op.type (es.zip types) = sumType (es.zip types) := by
    rcases hop with rfl | rfl <;> rfl
  have hexec : exec (eval ctx (.nary op es)) s = exec (liftM (sumType (es.zip types))) m := by
    rw [eval_nary, exec_bind_of_ok hoperands, htype]
  have hlift (x y : Except Fault (Option ElementType)) :
      exec (liftM x : Eval (Option ElementType)) m = exec (liftM y) m ↔ x = y := by
    cases x <;> cases y <;> simp [lift_ok, lift_error]
  rw [hexec, hlift, sumType_eq, ← knownAllIntegral_iff]
  by_cases hintegral : knownAllIntegral others = true
  · rw [if_pos hintegral]
    exact iff_of_true rfl (.inl hintegral)
  · obtain ⟨ss, hss⟩ : ∃ ss : List Scalar, small = ss.map (some ∘ ElementType.scalar) :=
      exists_smallTypes_eq hoperands
    have hsome : ∃ type, some type ∈ others := by
      by_contra hnone
      exact hintegral (knownAllIntegral_iff.2 fun type htype => (hnone ⟨type, htype⟩).elim)
    rw [if_neg hintegral, or_iff_right hintegral, eq_comm]
    change ElementType.combine (others ++ small) = ElementType.combine others ↔ _
    rw [hss, ElementType.combine_append_scalars_eq_iff hsome]
    simp

/-- A kernel with inputs that are not integers and one that is. -/
def flagKernel : Kernel := { Kernel.empty "k" with
  args := [⟨"b", .known (.scalar .bool), .input⟩, ⟨"h", .known (.handle "handle_t"), .input⟩,
    ⟨"n", .known (.scalar .int8), .input⟩] }

/-- What the operands are in this kernel, and what their sum is. -/
def flagTypes (es : List Expr) :
    Outcome (List (Option ElementType)) × Outcome (Option ElementType) :=
  let ctx : Context := ⟨.cLike, flagKernel, ∅, inferKernel .cLike 0 true⟩
  ((exec (es.mapM (eval ctx)) (.start .empty)).1,
    (exec (eval ctx (.nary .sum es)) (.start .empty)).1)

theorem sum_eq_combine_iff_flagKernel :
    let ctx : Context := ⟨.cLike, flagKernel, ∅, inferKernel .cLike 0 true⟩
    let es : List Expr := [.int 1, .var "n", .int 5000]
    ∃ m, exec (es.mapM (eval ctx)) (.start .empty) =
        (.ok [some .int32, some (.scalar .int8), some .int32], m) ∧
      exec (eval ctx (.nary .sum es)) (.start .empty) =
        exec (liftM (ElementType.combine [some (.scalar .int8), some .int32, some .int32])) m := by
  intro ctx es
  have htypes : (flagTypes es).1 = .ok [some .int32, some (.scalar .int8), some .int32] := by cbv
  have hoperands : exec (es.mapM (eval ctx)) (.start .empty) =
      (.ok [some .int32, some (.scalar .int8), some .int32],
        (exec (es.mapM (eval ctx)) (.start .empty)).2) := Prod.ext htypes rfl
  refine ⟨_, hoperands, (sum_eq_combine_iff (.inl rfl) hoperands).2 (.inl ?_)⟩
  simp [otherTypes, es, Expr.isSmallInt, Expr.int, Expr.smallBound, ElementType.isIntegral,
    ElementType.toScalar?, ElementType.int32, Scalar.isIntegral, Scalar.kind]

/-- A literal that is added to a boolean or to a handle is lost, though there is no float, complex
number or struct: the sum of a boolean and 1 is a boolean, and that of a handle and 1 a handle. -/
theorem flagKernel_drops_literals :
    flagTypes [.var "b", .int 1] =
        (.ok [some (.scalar .bool), some .int32], .ok (some (.scalar .bool))) ∧
      ElementType.combine [some (.scalar .bool), some .int32] = .ok (some .int32) ∧
      flagTypes [.var "h", .int 1] =
        (.ok [some (.handle "handle_t"), some .int32], .ok (some (.handle "handle_t"))) ∧
      ElementType.combine [some (.handle "handle_t"), some .int32] =
        .error (.handleMixed [.handle "handle_t", .int32]) := by
  refine ⟨?_, rfl, ?_, rfl⟩
  · cbv
  · cbv

/-! ### Expressions of untyped variables -/

/-- The name is that of a variable of which no type is known yet: it is no index name and no
constant of the target, the variable is declared without a type, and none was found. -/
structure Context.Untyped (ctx : Context) (name : String) : Prop where
  notIndex : ctx.kernel.inames.contains name = false
  notSymbol : ctx.kernel.symbol? ctx.target name = none
  notFound : ctx.env[name]? = none
  declared : ∃ v, ctx.kernel.findVariable? name = some v ∧ v.dtype.known? = none

/-- The expression is built from untyped variables by operators that need an operand to say
something.  Indices can be anything. -/
inductive OfUntyped (ctx : Context) : Expr → Prop where
  | var {name : String} (hname : ctx.Untyped name) : OfUntyped ctx (.var name)
  | nary {op : NaryOp} {es : List Expr} (hand : op ≠ .and) (hor : op ≠ .or)
    (hes : ∀ e ∈ es, OfUntyped ctx e) : OfUntyped ctx (.nary op es)
  | binary {op : BinaryOp} {l r : Expr} (hop : ∀ c, op ≠ .compare c) (hl : OfUntyped ctx l)
    (hr : OfUntyped ctx r) : OfUntyped ctx (.binary op l r)
  | ite {op : CompareOp} {l r t f : Expr} (hl : OfUntyped ctx l) (hr : OfUntyped ctx r)
    (ht : OfUntyped ctx t) (hf : OfUntyped ctx f) :
    OfUntyped ctx (.ite (.binary (.compare op) l r) t f)
  | subscript {a : Expr} {is : List Expr} (ha : OfUntyped ctx a) : OfUntyped ctx (.subscript a is)
  | linearSubscript {a i : Expr} (ha : OfUntyped ctx a) : OfUntyped ctx (.linearSubscript a i)
  | reduction {op : ReductionOp} {inames : List String} {body : Expr} (hop : op.isTuple = false)
    (hbody : OfUntyped ctx body) : OfUntyped ctx (.reduction op inames body)
  | tupleReduction {op : ReductionOp} {inames : List String} {body : Expr}
    (hop : op.isTuple = false) (hbody : OfUntyped ctx body) :
    OfUntyped ctx (.tupleReduction op inames [body])

/-- The operands whose types make up the type of an expression: not the condition of a choice. -/
def typedOperands : Expr → List Expr
  | .ite _ t f => [t, f]
  | e => operands e

/-- There is a quotient among the expressions that make up the type. -/
inductive Divides : Expr → Prop where
  | quotient (l r : Expr) : Divides (.binary .quotient l r)
  | operand {c e : Expr} (hc : c ∈ typedOperands e) (h : Divides c) : Divides e

/-- The type is that of a double if the expression divides, and nothing otherwise. -/
def DoubleIfDivides (e : Expr) (type? : Option ElementType) : Prop :=
  Divides e ∧ type? = some .float64 ∨ ¬Divides e ∧ type? = none

variable {e : Expr}

theorem divides_iff (h : ∀ l r, e ≠ .binary .quotient l r) :
    Divides e ↔ ∃ c ∈ typedOperands e, Divides c := by
  constructor
  · intro hdivides
    cases hdivides with
    | quotient l r => exact absurd rfl (h l r)
    | operand hc hdivides => exact ⟨_, hc, hdivides⟩
  · rintro ⟨c, hc, hdivides⟩
    exact .operand hc hdivides

theorem not_divides_of_operands_eq_nil (h : ∀ l r, e ≠ .binary .quotient l r)
    (hnil : typedOperands e = []) : ¬Divides e := by
  rw [divides_iff h, hnil]
  simp

theorem OfUntyped.isSmallInt (h : OfUntyped ctx e) : e.isSmallInt = false := by
  cases h <;> rfl

theorem DoubleIfDivides.eq_none_or {cs : List Expr} {types : List (Option ElementType)}
    (h : List.Forall₂ DoubleIfDivides cs types) : ∀ t ∈ types, t = none ∨ t = some .float64 :=
  forall_right_of_forall₂ h fun _ _ _ ht => ht.elim (fun ht => .inr ht.2) fun ht => .inl ht.2

/-- Operands that are doubles where they divide combine to a double if one of them divides. -/
theorem exec_combine {cs : List Expr} {types : List (Option ElementType)}
    (h : List.Forall₂ DoubleIfDivides cs types) (he : Divides e ↔ ∃ c ∈ cs, Divides c)
    (s : State) :
    ∃ type? s', exec (liftM (ElementType.combine types) : Eval (Option ElementType)) s =
      (.ok type?, s') ∧ DoubleIfDivides e type? := by
  rw [ElementType.combine_of_uniform (DoubleIfDivides.eq_none_or h)]
  refine ⟨_, s, rfl, ?_⟩
  by_cases hdouble : some .float64 ∈ types
  · obtain ⟨c, hc, ⟨hdivides, -⟩ | ⟨-, hnone⟩⟩ := exists_right_of_forall₂ h.flip hdouble
    · exact .inl ⟨he.2 ⟨c, hc, hdivides⟩, if_pos hdouble⟩
    · cases hnone
  · refine .inr ⟨fun hdivides => ?_, if_neg hdouble⟩
    obtain ⟨c, hc, hc'⟩ := he.1 hdivides
    obtain ⟨t, ht, ⟨-, rfl⟩ | ⟨hnot, -⟩⟩ := exists_right_of_forall₂ h hc
    · exact hdouble ht
    · exact hnot hc'

/-- A quotient of operands of which nothing is known is a double, as one of doubles is. -/
theorem quotient_type {l r : Expr} {left right : Option ElementType}
    (h : List.Forall₂ DoubleIfDivides [l, r] [left, right]) :
    BinaryOp.quotient.type left right = .ok (some .float64) := by
  have huniform := DoubleIfDivides.eq_none_or h
  unfold BinaryOp.type
  dsimp only
  split
  case isTrue => rfl
  case isFalse hnot =>
    have hdouble : some .float64 ∈ [left, right] := by
      by_contra hnone
      refine hnot (knownAllIntegral_iff.2 fun type htype => ?_)
      rcases huniform _ htype with h | h
      · cases h
      · exact absurd (h ▸ htype) hnone
    rw [ElementType.combine_of_uniform huniform, if_pos hdouble]

theorem NaryOp.type_eq_combine {op : NaryOp} (hand : op ≠ .and) (hor : op ≠ .or)
    {operands : List (Expr × Option ElementType)} (h : ∀ o ∈ operands, o.1.isSmallInt = false) :
    op.type operands = ElementType.combine (operands.map (·.2)) := by
  have hsum : sumType operands = ElementType.combine (operands.map (·.2)) := by
    have hothers : otherTypes operands = operands.map (·.2) := by
      rw [otherTypes, List.filter_eq_self.2 (by simpa using h)]
    have hsmall : smallTypes operands = [] := by
      rw [smallTypes, List.filter_eq_nil_iff.2 (by simpa using h), List.map_nil]
    rw [sumType_eq, hothers, hsmall, List.append_nil, ite_self]
  cases op with
  | sum | product => exact hsum
  | and => exact absurd rfl hand
  | or => exact absurd rfl hor
  | bitAnd | bitOr | bitXor | min | max => rfl

/-- The evaluation ends without a fault from any state, with a double if the expression divides
and without a type otherwise. -/
def SettlesAsQuotient (ctx : Context) (e : Expr) : Prop :=
  ∀ s, ∃ type? s', exec (eval ctx e) s = (.ok type?, s') ∧ DoubleIfDivides e type?

theorem exec_mapM_of_settles {es : List Expr} (h : ∀ e ∈ es, SettlesAsQuotient ctx e) (s : State) :
    ∃ types s', exec (es.mapM (eval ctx)) s = (.ok types, s') ∧
      List.Forall₂ DoubleIfDivides es types := by
  induction es generalizing s with
  | nil => exact ⟨[], s, rfl, .nil⟩
  | cons e es ih =>
    obtain ⟨type?, s₁, he, htype⟩ := h e (by simp) s
    obtain ⟨types, s₂, hes, htypes⟩ := ih (fun e he => h e (by simp [he])) s₁
    refine ⟨type? :: types, s₂, ?_, .cons htype htypes⟩
    rw [List.mapM_cons, exec_bind_of_ok he, exec_bind_of_ok hes]
    rfl

/-- It is enough to conclude from operands that settle. -/
theorem settles_of_conclude (h : ∀ c ∈ operands e, SettlesAsQuotient ctx c)
    (hconclude : ∀ types s, List.Forall₂ DoubleIfDivides (operands e) types →
      ∃ type? s', exec (conclude ctx e types) s = (.ok type?, s') ∧ DoubleIfDivides e type?) :
    SettlesAsQuotient ctx e := by
  intro s
  obtain ⟨types, s₁, htypes, hall⟩ := exec_mapM_of_settles h s
  rw [eval_eq, exec_bind_of_ok htypes]
  exact hconclude types s₁ hall

theorem Context.Untyped.exec_variableType {name : String} (h : ctx.Untyped name) (s : State) :
    exec (variableType ctx name) s = (.ok none, s.noteIf true name) := by
  obtain ⟨v, hv, hunknown⟩ := h.declared
  have hmissing : (!v.dtype.isKnown) = true := by rw [Dtype.isKnown, hunknown]; rfl
  unfold variableType
  rw [h.notIndex, h.notSymbol, h.notFound, hv]
  dsimp only
  rw [if_neg Bool.false_ne_true, if_pos hmissing, hunknown]
  rfl

/-- An expression that passes on the type of its one operand settles if that does. -/
theorem settles_of_operand {a : Expr} (he : ∀ l r, e ≠ .binary .quotient l r)
    (hoperands : operands e = [a]) (htyped : typedOperands e = [a])
    (hconclude : ∀ type? s, exec (conclude ctx e [type?]) s = (.ok type?, s))
    (ha : SettlesAsQuotient ctx a) : SettlesAsQuotient ctx e := by
  have hdivides : Divides e ↔ Divides a := by
    rw [divides_iff he, htyped]
    simp
  refine settles_of_conclude (by simpa [hoperands] using ha) fun types s htypes => ?_
  rw [hoperands] at htypes
  match types, htypes with
  | [type?], .cons htype .nil =>
    exact ⟨type?, s, hconclude type? s, by rwa [DoubleIfDivides, hdivides]⟩

/-- A reduction of one value has its type. -/
theorem reductionResults_single {op : ReductionOp} (hop : op.isTuple = false)
    (type? : Option ElementType) :
    reductionResults op ([type?].mapM id) = pure (type?.map ([·])) := by
  cases type? with
  | none => rfl
  | some type =>
    have hresults : op.resultTypes [type] = .ok [type] := by simp [ReductionOp.resultTypes, hop]
    change (do return some (← liftM (op.resultTypes [type]))) = _
    rw [hresults]
    rfl

theorem OfUntyped.settles (h : OfUntyped ctx e) : SettlesAsQuotient ctx e := by
  induction h with
  | @var name hname =>
    intro s
    rw [eval_var, hname.exec_variableType]
    exact ⟨none, _, rfl, .inr ⟨not_divides_of_operands_eq_nil (by simp) rfl, rfl⟩⟩
  | @nary op es hand hor hes ih =>
    refine settles_of_conclude ih fun types s htypes => ?_
    have hsmall : ∀ o ∈ es.zip types, o.1.isSmallInt = false :=
      fun o ho => (hes _ (List.of_mem_zip ho).1).isSmallInt
    have htype : op.type (es.zip types) = ElementType.combine types := by
      have hlength : types.length ≤ es.length := htypes.length_eq.ge
      rw [NaryOp.type_eq_combine hand hor hsmall, List.map_snd_zip hlength]
    rw [conclude, htype]
    exact exec_combine htypes (divides_iff (by simp)) s
  | @binary op l r hop hl hr ihl ihr =>
    have hoperands : ∀ c ∈ operands (.binary op l r), SettlesAsQuotient ctx c := by
      simp [operands, Expr.children, ihl, ihr]
    refine settles_of_conclude hoperands fun types s htypes => ?_
    obtain ⟨left, right, rfl⟩ := List.length_eq_two.1 htypes.length_eq.symm
    rw [conclude]
    cases op with
    | quotient =>
      rw [quotient_type htypes]
      exact ⟨_, s, rfl, .inl ⟨.quotient l r, rfl⟩⟩
    | compare c => exact absurd rfl (hop c)
    | floorDiv | remainder | power | shiftLeft | shiftRight =>
      exact exec_combine htypes (divides_iff (by simp)) s
  | @ite op l r t f hl hr ht hf ihl ihr iht ihf =>
    intro s
    -- the condition is a truth value, whatever its operands are, and plays no further part
    obtain ⟨left, s₁, hleft, -⟩ := ihl s
    obtain ⟨right, s₂, hright, -⟩ := ihr s₁
    have hcondition : exec (eval ctx (.binary (.compare op) l r)) s = (.ok (some .truth), s₂) := by
      rw [eval_binary, exec_bind_of_ok hleft, exec_bind_of_ok hright]
      rfl
    have hsettle : ∀ branch ∈ [t, f], SettlesAsQuotient ctx branch := by simp [iht, ihf]
    obtain ⟨types, s₃, hbranches, htypes⟩ := exec_mapM_of_settles hsettle s₂
    have hoperands : exec ([.binary (.compare op) l r, t, f].mapM (eval ctx)) s =
        (.ok (some .truth :: types), s₃) := by
      rw [List.mapM_cons, exec_bind_of_ok hcondition, exec_bind_of_ok hbranches]
      rfl
    rw [eval_eq]
    change ∃ type? s', exec ([_, t, f].mapM (eval ctx) >>= _) s = _ ∧ _
    rw [exec_bind_of_ok hoperands]
    obtain ⟨onTrue, onFalse, rfl⟩ := List.length_eq_two.1 htypes.length_eq.symm
    exact exec_combine htypes (divides_iff (by simp)) s₃
  | subscript ha ih | linearSubscript ha ih =>
    exact settles_of_operand (by simp) rfl rfl (fun _ _ => rfl) ih
  | @reduction op inames body hop hbody ih | @tupleReduction op inames body hop hbody ih =>
    refine settles_of_operand (a := body) (by simp) ?_ ?_ (fun type? s => ?_) ih
    · simp [operands, hop]
    · simp [typedOperands, operands, hop]
    · rw [conclude, hop, reductionResults_single hop]
      cases type? <;> rfl

/-- **Types out of nothing.**  An expression of untyped variables has no type exactly if it does not
divide: a quotient counts operands of which nothing is known as integers, so that it is a double,
and so is all that is made of it. -/
theorem eval_untyped (h : OfUntyped ctx e) (s : State) :
    (¬Divides e → (exec (eval ctx e) s).1 = .ok none) ∧
      (Divides e → (exec (eval ctx e) s).1 = .ok (some .float64)) := by
  obtain ⟨type?, s', heval, htype⟩ := h.settles s
  rw [heval]
  rcases htype with ⟨hdivides, rfl⟩ | ⟨hnot, rfl⟩
  · exact ⟨fun hnot => absurd hdivides hnot, fun _ => rfl⟩
  · exact ⟨fun _ => rfl, fun hdivides => absurd hdivides hnot⟩

/-- A kernel of which nothing is known. -/
def untypedKernel : Kernel := { Kernel.empty "k" with
  args := [⟨"x", .unknown, .input⟩, ⟨"y", .unknown, .input⟩] }

/-- An evaluation in this kernel. -/
def untypedContext : Context := ⟨.cLike, untypedKernel, ∅, inferKernel .cLike 0 true⟩

theorem untyped_untypedKernel {name : String} (h : name = "x" ∨ name = "y") :
    untypedContext.Untyped name := by
  rcases h with rfl | rfl
  · exact ⟨by cbv, by cbv, by cbv, _, rfl, rfl⟩
  · exact ⟨by cbv, by cbv, by cbv, _, rfl, rfl⟩

theorem eval_untyped_untypedKernel :
    let e : Expr := .ite (.binary (.compare .lt) (.var "x") (.var "y"))
      (.nary .sum [.var "x", .binary .power (.var "y") (.var "x")])
      (.reduction .max ["i"] (.subscript (.var "y") [.int 3]))
    (exec (eval untypedContext e) (.start .empty)).1 = .ok none := by
  intro e
  have hx : OfUntyped untypedContext (.var "x") := .var (untyped_untypedKernel (.inl rfl))
  have hy : OfUntyped untypedContext (.var "y") := .var (untyped_untypedKernel (.inr rfl))
  have he : OfUntyped untypedContext e := by
    refine .ite hx hy (.nary (by simp) (by simp) ?_) (.reduction rfl (.subscript hy))
    simp only [List.forall_mem_cons]
    exact ⟨hx, .binary (by simp) hy hx, by simp⟩
  refine (eval_untyped he _).1 ?_
  simp [divides_iff, typedOperands, operands, Expr.children, e]

/-- The quotient of two variables of which nothing is known has a type. -/
theorem untypedKernel_invents_double :
    let e : Expr := .binary .quotient (.var "x") (.var "y")
    OfUntyped untypedContext e ∧
      (exec (eval untypedContext e) (.start .empty)).1 = .ok (some .float64) := by
  intro e
  have hx : OfUntyped untypedContext (.var "x") := .var (untyped_untypedKernel (.inl rfl))
  have hy : OfUntyped untypedContext (.var "y") := .var (untyped_untypedKernel (.inr rfl))
  exact ⟨.binary (by simp) hx hy, by cbv⟩

end Evaluation

end KernelTyping
