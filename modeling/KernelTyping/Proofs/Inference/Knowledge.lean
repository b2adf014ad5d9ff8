import KernelTyping.Proofs.Callable
import KernelTyping.Proofs.Evaluation.Operators
import KernelTyping.Proofs.Inference.Findings
import KernelTyping.Proofs.Inference.Fuel
import KernelTyping.Proofs.Inference.Stability

/-!
# KernelTyping.Proofs.Inference.Knowledge — what is known depends on what is known

Whether an expression has a type depends on which names have one, not on the types themselves.  If
more names are typed, differently or not, the expression has a type again, unless there is a fault
that lasts (`eval_knownToo`).

* `Follows` compares two computations: where the first succeeds, the second fails only in the given
  way, and the results are related.
* `Sustains` says so of two evaluations from tables that may differ, as long as both have grown from
  one (`State.Extends`): callees that are there at the start are found again in both.
* An operator, a name and a call of a generic callee sustain what is known of their operands
  (`sustains_conclude`), and so an expression sustains what is known of the names (`sustains_eval`).
-/

namespace KernelTyping

open Evaluation

/-! ### One computation after the other -/

/-- Where the first succeeds, the second fails only in this way, and its result is related. -/
def Follows {ε α β : Type} (P : ε → Prop) (K : α → β → Prop) (x : Except ε α) (y : Except ε β) :
    Prop :=
  ∀ a, x = .ok a → FailsOnly P y ∧ ∀ b, y = .ok b → K a b

namespace Follows

variable {ε α β γ δ : Type} {P : ε → Prop} {K : α → β → Prop} {L : γ → δ → Prop}
  {x : Except ε α} {y : Except ε β}

theorem of_failsOnly (hy : FailsOnly P y) (h : ∀ a b, x = .ok a → y = .ok b → K a b) :
    Follows P K x y := fun a ha => ⟨hy, fun b hb => h a b ha hb⟩

theorem ok {a : α} {b : β} (h : K a b) : Follows P K (.ok a) (.ok b) := by
  refine of_failsOnly (.ok b) fun a' b' ha hb => ?_
  obtain rfl := Except.ok.inj ha
  obtain rfl := Except.ok.inj hb
  exact h

theorem error (e : ε) (y : Except ε β) : Follows P K (.error e) y := nofun

theorem bind {f : α → Except ε γ} {g : β → Except ε δ} (h : Follows P K x y)
    (hfg : ∀ a b, K a b → Follows P L (f a) (g b)) : Follows P L (x >>= f) (y >>= g) := by
  intro c hc
  obtain ⟨a, ha, hc⟩ := bind_eq_ok.1 hc
  obtain ⟨hy, hK⟩ := h a ha
  constructor
  · intro e he
    rcases bind_eq_error.1 he with he | ⟨b, hb, he⟩
    · exact hy e he
    · exact (hfg a b (hK b hb) c hc).1 e he
  · intro d hd
    obtain ⟨b, hb, hd⟩ := bind_eq_ok.1 hd
    exact (hfg a b (hK b hb) c hc).2 d hd

end Follows

/-! ### Operators -/

theorem ElementType.knownToo_combine {types types' : List (Option ElementType)}
    {type? type?' : Option ElementType} (h : List.Forall₂ KnownToo types types')
    (h₁ : combine types = .ok type?) (h₂ : combine types' = .ok type?') :
    KnownToo type? type?' := by
  refine knownToo_of_eq_none fun hnone => ?_
  have hall : ∀ type ∈ types', type = none := combine_eq_ok_none_iff.1 (hnone ▸ h₂)
  have hall' : ∀ type ∈ types, type = none :=
    forall_right_of_forall₂ h.flip fun _ htype _ hknown => KnownToo.eq_none hknown (hall _ htype)
  exact Except.ok.inj (h₁.symm.trans (combine_eq_ok_none_iff.2 hall'))

theorem NaryOp.knownToo_type {op : NaryOp} {es : List Expr}
    {types types' : List (Option ElementType)} {type? type?' : Option ElementType}
    (h : List.Forall₂ KnownToo types types')
    (h₁ : op.type (es.zip types) = .ok type?) (h₂ : op.type (es.zip types') = .ok type?') :
    KnownToo type? type?' := by
  have hzip := forall₂_zip h es
  have hsum (h₁ : sumType (es.zip types) = .ok type?) (h₂ : sumType (es.zip types') = .ok type?') :
      KnownToo type? type?' := by
    refine knownToo_of_eq_none fun hnone => ?_
    have hall := sumType_eq_ok_none_iff.1 (hnone ▸ h₂)
    have hall' : ∀ o ∈ es.zip types, o.2 = none :=
      forall_right_of_forall₂ hzip.flip fun o ho _ hknown => hknown.2.eq_none (hall o ho)
    exact Except.ok.inj (h₁.symm.trans (sumType_eq_ok_none_iff.2 hall'))
  have hcombine : List.Forall₂ KnownToo ((es.zip types).map (·.2)) ((es.zip types').map (·.2)) := by
    rw [List.forall₂_map_left_iff, List.forall₂_map_right_iff]
    exact hzip.imp fun _ _ hpq => hpq.2
  cases op with
  | sum | product => exact hsum h₁ h₂
  | bitAnd | bitOr | bitXor | min | max => exact ElementType.knownToo_combine hcombine h₁ h₂
  | and | or =>
    obtain rfl := Except.ok.inj h₂
    exact .some _ _

theorem BinaryOp.knownToo_type {op : BinaryOp} {left left' right right' : Option ElementType}
    {type? type?' : Option ElementType} (hl : KnownToo left left') (hr : KnownToo right right')
    (h₁ : op.type left right = .ok type?) (h₂ : op.type left' right' = .ok type?') :
    KnownToo type? type?' := by
  have hoperands : List.Forall₂ KnownToo [left, right] [left', right'] := .cons hl (.cons hr .nil)
  cases op with
  | quotient =>
    exact knownToo_of_eq_none fun hnone => absurd (hnone ▸ h₂) (quotient_type_ne_none _ _)
  | floorDiv | remainder | power | shiftLeft | shiftRight =>
    exact ElementType.knownToo_combine hoperands h₁ h₂
  | compare =>
    obtain rfl := Except.ok.inj h₂
    exact .some _ _

/-! ### Evaluations -/

namespace Evaluation

variable {α β γ δ : Type} {ctx : Context} {t : Table} {K : α → β → Prop} {L : γ → δ → Prop}

/-- The result of an evaluation from a state, with the state it leaves. -/
def outcome (x : Eval α) (s : State) : Outcome (α × State) := (exec x s).1.map (·, (exec x s).2)

theorem outcome_of_exec {x : Eval α} {s m : State} {r : Except Halt α} (h : exec x s = (r, m)) :
    outcome x s = r.map (·, m) := by
  rw [outcome, h]

theorem outcome_bind (x : Eval α) (f : α → Eval γ) (s : State) :
    outcome (x >>= f) s = outcome x s >>= fun p => outcome (f p.1) p.2 := by
  match h : exec x s with
  | (.ok a, m) =>
    rw [outcome_of_exec h, outcome, exec_bind_of_ok h]
    rfl
  | (.error e, m) =>
    have hbind : exec (x >>= f) s = (.error e, m) := by rw [exec_bind, h]
    rw [outcome_of_exec h, outcome_of_exec hbind]
    rfl

/-- The state is sound, and its table has grown from `t`. -/
def State.Extends (s : State) (t : Table) : Prop := t.Grows s.table ∧ s.Sound

/-- From states that extend a table: where the first evaluation succeeds, the second fails only with
what lasts, and its result is related. -/
def Sustains (t : Table) (K : α → β → Prop) (x : Eval α) (y : Eval β) : Prop :=
  ∀ ⦃s s' : State⦄, s.Extends t → s'.Extends t →
    Follows Halt.Lasts (fun p q => K p.1 q.1 ∧ p.2.Extends t ∧ q.2.Extends t) (outcome x s)
      (outcome y s')

namespace Sustains

theorem pure {a : α} {b : β} (h : K a b) : Sustains t K (pure a) (pure b) :=
  fun _ _ hs hs' => .ok ⟨h, hs, hs'⟩

theorem bind {x : Eval α} {y : Eval β} {f : α → Eval γ} {g : β → Eval δ} (h : Sustains t K x y)
    (hfg : ∀ a b, K a b → Sustains t L (f a) (g b)) : Sustains t L (x >>= f) (y >>= g) := by
  intro s s' hs hs'
  rw [outcome_bind, outcome_bind]
  exact (h hs hs').bind fun p q hpq => hfg p.1 q.1 hpq.1 hpq.2.1 hpq.2.2

/-- Nothing is asked for where the first evaluation fails. -/
theorem left {x : Eval α} (hx : ∀ s, ∃ e, (exec x s).1 = .error e) (y : Eval β) :
    Sustains t K x y := by
  intro s s' _ _
  obtain ⟨e, he⟩ := hx s
  rw [outcome, he]
  exact .error e _

theorem fault (cause : Fault) (y : Eval β) : Sustains t K (fault cause : Eval α) y :=
  .left (fun _ => ⟨_, rfl⟩) y

theorem lasting (x : Eval α) {cause : Fault} (h : cause.Lasts) :
    Sustains t K x (Evaluation.fault cause : Eval β) :=
  fun _ _ _ _ => .of_failsOnly (.error h) nofun

theorem lift {x : Except Fault α} {y : Except Fault β} (hy : FailsOnly Fault.Lasts y)
    (h : ∀ a b, x = .ok a → y = .ok b → K a b) :
    Sustains t K (liftM x : Eval α) (liftM y : Eval β) := by
  cases x with
  | error e => exact .fault e _
  | ok a =>
    cases y with
    | error e => exact .lasting _ (hy e rfl)
    | ok b => exact .pure (h a b rfl rfl)

/-- What is computed without a look at names and calls is known, or fails. -/
theorem known {a : Option α} {x : Except Fault β} (hx : FailsOnly Fault.Lasts x) :
    Sustains t KnownToo (Pure.pure a) (do return some (← (liftM x : Eval β))) := by
  cases x with
  | error f => exact .lasting _ (hx f rfl)
  | ok b => exact .pure (.some _ _)

theorem mapM {ι : Type} {f : ι → Eval α} {g : ι → Eval β} {xs : List ι}
    (h : ∀ x ∈ xs, Sustains t K (f x) (g x)) :
    Sustains t (List.Forall₂ K) (xs.mapM f) (xs.mapM g) := by
  induction xs with
  | nil => exact .pure .nil
  | cons x xs ih =>
    rw [List.mapM_cons, List.mapM_cons]
    refine (h x (by simp)).bind fun a b hab => ?_
    refine (ih fun x hx => h x (by simp [hx])).bind fun as bs habs => ?_
    exact .pure (.cons hab habs)

end Sustains

theorem State.Extends.start (h : t.isEditing = true) : (State.start t).Extends t :=
  ⟨.refl t, .start h⟩

/-- A step that lets tables grow keeps a state an extension. -/
theorem State.Extends.of_grows {s m : State} (h : s.Extends t)
    (hstep : s.Sound → s.table.Grows m.table ∧ m.Sound) : m.Extends t :=
  ⟨h.1.trans (hstep h.2).1, (hstep h.2).2⟩

/-- It is enough to compare results, for evaluations that let tables grow. -/
theorem Sustains.of_results {x : Eval α} {y : Eval β}
    (hx : Evolves (fun s m => s.Sound → s.table.Grows m.table ∧ m.Sound) x)
    (hy : Evolves (fun s m => s.Sound → s.table.Grows m.table ∧ m.Sound) y)
    (h : ∀ ⦃s s' : State⦄, s.Extends t → s'.Extends t →
      Follows Halt.Lasts K (exec x s).1 (exec y s').1) : Sustains t K x y := by
  intro s s' hs hs' p hp
  obtain ⟨a, ha, rfl⟩ := map_eq_ok.1 hp
  obtain ⟨hlasts, hK⟩ := h hs hs' a ha
  refine ⟨hlasts.map _, fun q hq => ?_⟩
  obtain ⟨b, hb, rfl⟩ := map_eq_ok.1 hq
  exact ⟨hK b hb, hs.of_grows (hx (Prod.ext ha rfl)), hs'.of_grows (hy (Prod.ext hb rfl))⟩

/-! ### Names and calls -/

variable {E₁ E₂ : Env}

/-- A name has a type if it has one where fewer names are typed. -/
theorem follows_variableType (hE : ∀ name ∈ E₁, name ∈ E₂) (name : String) (s s' : State) :
    Follows Halt.Lasts KnownToo (exec (variableType { ctx with env := E₁ } name) s).1
      (exec (variableType { ctx with env := E₂ } name) s').1 := by
  unfold variableType
  dsimp only
  split
  · exact .ok (.some _ _)
  · split
    · exact .ok (.some _ _)
    · cases h₂ : E₂[name]? with
      | some type => exact .of_failsOnly (.ok _) fun a b _ hb => Except.ok.inj hb ▸ .some _ _
      | none =>
        have h₁ : E₁[name]? = none := by
          refine Std.ExtTreeMap.getElem?_eq_none fun hmem => ?_
          have := Std.ExtTreeMap.isSome_getElem?_iff_mem.2 (hE name hmem)
          rw [h₂] at this
          cases this
        rw [h₁]
        dsimp only
        split
        · split
          · exact .ok id
          · exact .ok id
        · split
          · exact .ok id
          · exact .error _ _

/-- The callee is a builtin or a kernel of the table for which no types are recorded. -/
inductive Generic (t : Table) : Callee → Prop where
  | intro {name : String} {c : Callable} (hname : t.get? name = some c) (hc : c.signature = none)
    (hmatched : ∀ matcher spelling, c.implementation ≠ .matched matcher spelling) :
    Generic t (.entry name)

theorem Generic.ofBuiltin {name : String} {f : Builtin}
    (h : t.get? name = some (.ofBuiltin f)) : Generic t (.entry name) := .intro h rfl nofun

theorem Generic.ofKernel {name : String} {k : Kernel} (h : t.get? name = some (.ofKernel k)) :
    Generic t (.entry name) := .intro h rfl nofun

theorem isSome_of_resolutionOfEntry {name : String} {incoming : Incoming} {u v : Table}
    {resolved : Option Resolved} {c : Callable} (hname : u.get? name = some c)
    (hc : c.signature = none)
    (h : resolutionOfEntry ctx name incoming u = .ok (resolved, v)) :
    ∃ c' w, c.specialize ctx.target ctx.infer ctx.kernel incoming u = .ok (c', w) ∧
      resolved.isSome = c'.results?.isSome := by
  obtain ⟨⟨c', w⟩, hspecialized, h⟩ := bind_eq_ok.1 h
  unfold specializeEntry at hspecialized
  rw [hname] at hspecialized
  dsimp only at hspecialized
  rw [hc] at hspecialized
  refine ⟨c', w, hspecialized, ?_⟩
  dsimp only at h
  split at h
  case h_1 hnone =>
    obtain ⟨rfl, -⟩ := Prod.mk.inj (Except.ok.inj h)
    rw [hnone]
    rfl
  case h_2 results hresults =>
    obtain ⟨⟨x, stored⟩, -, h⟩ := bind_eq_ok.1 h
    obtain ⟨rfl, -⟩ := Prod.mk.inj (Except.ok.inj h)
    rw [hresults]
    rfl

theorem head?_isSome_of_resultTypes {op : ReductionOp} {args results : List ElementType}
    (h : op.resultTypes args = .ok results) : results.head?.isSome = true := by
  unfold ReductionOp.resultTypes at h
  split at h
  · obtain rfl := Except.ok.inj h
    rfl
  · split at h
    · obtain rfl := Except.ok.inj h
      rfl
    · cases h
  · cases h

theorem sustains_reductionResults {op : ReductionOp} {args args' : Option (List ElementType)}
    (h : KnownToo args args') :
    Sustains t (fun r r' => KnownToo (r.bind List.head?) (r'.bind List.head?))
      (reductionResults op args) (reductionResults op args') := by
  match args, args', h with
  | none, none, _ => exact .pure id
  | some _, none, h => cases h rfl
  | none, some args', _ =>
    cases hresults : op.resultTypes args' with
    | error f =>
      simp only [reductionResults, hresults]
      exact .lasting _ (op.lasting_resultTypes args' f hresults)
    | ok results =>
      simp only [reductionResults, hresults]
      exact .pure fun _ => head?_isSome_of_resultTypes hresults
  | some args, some args', _ =>
    refine (Sustains.lift (K := fun _ results => results.head?.isSome = true)
      (op.lasting_resultTypes args') fun _ _ _ => head?_isSome_of_resultTypes).bind ?_
    exact fun _ results hresults => .pure fun _ => hresults

theorem sustains_single (call : Expr) {results results' : Option (List ElementType)}
    (h : KnownToo results results') :
    Sustains t KnownToo (single call results) (single call results') := by
  have hlasts : (Fault.callNotSingle call).Lasts := rfl
  match results, results', h with
  | none, none, _ => exact .pure id
  | some _, none, h => cases h rfl
  | some [], _, _ | some (_ :: _ :: _), _, _ => exact .fault _ _
  | none, some [_], _ | some [_], some [_], _ => exact .pure (.some _ _)
  | none, some [], _ | none, some (_ :: _ :: _), _ => exact .lasting _ hlasts
  | some [_], some [], _ | some [_], some (_ :: _ :: _), _ => exact .lasting _ hlasts

section Calls

variable (hgrows : GrowsTable ctx.infer) (hinfer : ∀ k t, FailsOnly Halt.Lasts (ctx.infer k t))
  (hkeeps : ∀ ⦃k t k' t'⦄, ctx.infer k t = .ok (k', t') → k.KnownIn k')

include hgrows hinfer hkeeps

/-- A call of a generic entry has results if it has some where less is known of its arguments. -/
theorem sustains_callResults {callee : Callee} (hcallee : Generic t callee) (args : List Expr)
    (keywords : List (String × Expr)) {types types' : List (Option ElementType)}
    (h : List.Forall₂ KnownToo types types') :
    Sustains t KnownToo (callResults ctx callee args keywords types)
      (callResults ctx callee args keywords types') := by
  have hevolves (types : List (Option ElementType)) :=
    (evolution_grows hgrows).callResults callee args keywords types
  refine .of_results (hevolves types) (hevolves types') fun s s' hs hs' => ?_
  have hexec (types : List (Option ElementType)) (s : State) :
      (exec (callResults ctx callee args keywords types) s).1 =
        (resolution ctx callee args keywords types s.table).map fun r => r.1.map (·.1) := by
    rw [exec_callResults]
    cases resolution ctx callee args keywords types s.table <;> rfl
  rw [hexec, hexec]
  refine .of_failsOnly ((lasting_resolution hinfer _ _ _ _ _).map _) fun a b ha hb => ?_
  obtain ⟨⟨resolved, u⟩, hresolved, rfl⟩ := map_eq_ok.1 ha
  obtain ⟨⟨resolved', u'⟩, hresolved', rfl⟩ := map_eq_ok.1 hb
  obtain @⟨name, c, hname, hc, hmatched⟩ := hcallee
  obtain ⟨c₁, v, hc₁, hsome⟩ :=
    isSome_of_resolutionOfEntry (hs.1.get? hname) hc hresolved
  obtain ⟨c₂, v', hc₂, hsome'⟩ :=
    isSome_of_resolutionOfEntry (hs'.1.get? hname) hc hresolved'
  have hincoming : Incoming.KnownIn
      (.ofArguments (types.take args.length)
        ((keywords.map (·.1)).zip (types.drop args.length)))
      (.ofArguments (types'.take args.length)
        ((keywords.map (·.1)).zip (types'.drop args.length))) :=
    Incoming.knownIn_ofArguments (List.forall₂_take _ h) (forall₂_zip (List.forall₂_drop _ h) _)
  have hresults := Callable.knownToo_of_specialize hkeeps hc hmatched hincoming hc₁ hc₂
  unfold KnownToo at hresults ⊢
  rwa [Option.isSome_map, Option.isSome_map, hsome, hsome']

omit hinfer hkeeps in
theorem sustains_variableType (hE : ∀ name ∈ E₁, name ∈ E₂) (name : String) :
    Sustains t KnownToo (variableType { ctx with env := E₁ } name)
      (variableType { ctx with env := E₂ } name) := by
  have hgrows₁ : GrowsTable ({ ctx with env := E₁ } : Context).infer := hgrows
  have hgrows₂ : GrowsTable ({ ctx with env := E₂ } : Context).infer := hgrows
  exact .of_results ((evolution_grows hgrows₁).variableType name)
    ((evolution_grows hgrows₂).variableType name) fun s s' _ _ => follows_variableType hE name s s'

/-- A node has a type if it has one where less is known of its operands. -/
theorem sustains_conclude (hE : ∀ name ∈ E₁, name ∈ E₂) {e : Expr}
    (he : ∀ callee args keywords, e = .call callee args keywords → Generic t callee)
    {types types' : List (Option ElementType)} (h : List.Forall₂ KnownToo types types') :
    Sustains t KnownToo (conclude { ctx with env := E₁ } e types)
      (conclude { ctx with env := E₂ } e types') := by
  cases e with
  | constant c =>
    exact (Sustains.lift c.lasting_type fun _ _ _ _ => trivial).bind fun _ _ _ => .pure (.some _ _)
  | var name => exact sustains_variableType hgrows hE name
  | hardware i => exact .pure (.some _ _)
  | nary op es => exact .lift (op.lasting_type _) fun _ _ => op.knownToo_type h
  | binary op l r =>
    match types, types', h with
    | _, _, .cons hl (.cons hr .nil) =>
      exact .lift (op.lasting_type _ _) fun _ _ => op.knownToo_type hl hr
    | _, _, .nil | _, _, .cons _ .nil | _, _, .cons _ (.cons _ (.cons _ _)) =>
      exact .pure (.none _)
  | not e => exact .pure (.some _ _)
  | ite c t f =>
    match types, types', h with
    | _, _, .cons _ (.cons ht (.cons hf .nil)) =>
      exact .lift (ElementType.lasting_combine _) fun _ _ =>
        ElementType.knownToo_combine (.cons ht (.cons hf .nil))
    | _, _, .nil | _, _, .cons _ .nil | _, _, .cons _ (.cons _ .nil)
    | _, _, .cons _ (.cons _ (.cons _ (.cons _ _))) => exact .pure (.none _)
  | subscript _ _ | linearSubscript _ _ | view _ _ =>
    match types, types', h with
    | _, _, .cons htype .nil => exact .pure htype
    | _, _, .nil | _, _, .cons _ (.cons _ _) => exact .pure (.none _)
  | lookup a field =>
    match types, types', h with
    | [some type], [some type'], _ =>
      exact (Sustains.lift (lasting_fieldType a type' field) fun _ _ _ _ => trivial).bind
        fun _ _ _ => .pure (.some _ _)
    | [none], [some type'], _ => exact .known (lasting_fieldType a type' field)
    | [none], [none], _ => exact .pure id
    | [some _], [none], .cons htype _ => cases htype rfl
    | [], [], _ => exact .pure id
    | first :: _ :: _, first' :: _ :: _, _ => cases first <;> cases first' <;> exact .pure id
  | cast target e =>
    match types, types', h with
    | [some source], [some source'], _ =>
      exact (Sustains.lift (lasting_castType source' target) fun _ _ _ _ => trivial).bind
        fun _ _ _ => .pure (.some _ _)
    | [none], _, _ => exact .left (fun s => ⟨_, rfl⟩) _
    | [some _], [none], .cons htype _ => cases htype rfl
    | [], [], _ => exact .pure id
    | first :: _ :: _, first' :: _ :: _, _ => cases first <;> cases first' <;> exact .pure id
  | call callee args keywords =>
    exact (sustains_callResults hgrows hinfer hkeeps (he callee args keywords rfl) args keywords
      h).bind fun results results' hresults => sustains_single _ hresults
  | reduction op _ _ | tupleReduction op _ _ =>
    simp only [conclude]
    split
    · exact .fault _ _
    · exact (sustains_reductionResults (knownToo_mapM_id h)).bind fun _ _ hresults => .pure hresults

variable (ctx) in
/-- An expression has a type if it has one where fewer names are typed. -/
theorem sustains_eval (hE : ∀ name ∈ E₁, name ∈ E₂) (e : Expr)
    (he : ∀ callee, e.Mentions callee → Generic t callee) :
    Sustains t KnownToo (eval { ctx with env := E₁ } e) (eval { ctx with env := E₂ } e) := by
  rw [eval_eq, eval_eq]
  refine (Sustains.mapM (K := KnownToo) fun c hc => ?_).bind fun types types' htypes => ?_
  · exact sustains_eval hE c fun callee hcallee => he callee (mentions_of_mem_operands hc hcallee)
  · refine sustains_conclude hgrows hinfer hkeeps hE (fun callee args keywords hcall => ?_) htypes
    exact he callee (hcall ▸ Expr.mentions_call callee args keywords)
termination_by e.size
decreasing_by exact size_lt_of_mem_operands hc

end Calls

end Evaluation

/-! ### Kernels that are called -/

/-- A typed kernel has the variables of the kernel, with the types that they had. -/
theorem knownIn_inferKernel {target : Target} {fuel : Nat} {complete : Bool} {k k' : Kernel}
    {t t' : Table} (h : inferKernel target fuel complete k t = .ok (k', t')) : k.KnownIn k' := by
  cases fuel with
  | zero => cases h
  | succ fuel =>
    obtain ⟨-, -, p, -, -, hfinish⟩ := Inference.inferWith_eq_ok.1 h
    obtain ⟨is, rfl⟩ := Inference.exists_instructions_of_finishKernel hfinish
    have hfilled := (Kernel.KnownIn.refl k).withTypes p.env.toList
    exact ⟨hfilled.args, hfilled.temporaries⟩

/-- **What is known depends on what is known.**  If an expression that calls only generic builtins
and kernels has a type under some types of the names, then it has one under any types of these names
and more, or meets a fault that is not temporary, whenever both evaluations come to an end. -/
theorem eval_knownToo {target : Target} {fuel fuel' : Nat} {k : Kernel} {t : Table} {E₁ E₂ : Env}
    {e : Expr} {type : ElementType} {s : State} (ht : t.isEditing = true)
    (he : ∀ callee, e.Mentions callee → Generic t callee) (hE : ∀ name ∈ E₁, name ∈ E₂)
    (h : exec (eval ⟨target, k, E₁, inferKernel target fuel true⟩ e) (.start t) =
      (.ok (some type), s)) :
    let result := (exec (eval ⟨target, k, E₂, inferKernel target fuel' true⟩ e) (.start t)).1
    result ≠ .error .exhausted →
      (∃ type', result = .ok (some type')) ∨
        ∃ f, result = .error (.fault f) ∧ f.isTemporary = false := by
  intro result hends
  -- both evaluations are the same with the larger fuel
  have hmore {n : Nat} (hle : n ≤ max fuel fuel') (E : Env)
      (hends : (exec (eval ⟨target, k, E, inferKernel target n true⟩ e) (.start t)).1 ≠
        .error .exhausted) :=
    answered_eval ⟨target, k, E, inferKernel target n true⟩
      (answeredBy_inferKernel target hle true) e (.start t) hends
  have hfirst := (hmore (le_max_left _ _) E₁ (by rw [h]; exact nofun)).trans h
  have hsecond := hmore (le_max_right _ _) E₂ hends
  obtain ⟨hlasts, hknown⟩ := sustains_eval ⟨target, k, ∅, inferKernel target (max fuel fuel') true⟩
    (inferKernel_grows target _ true) (lasting_inferKernel target _ true)
    (fun _ _ _ _ => knownIn_inferKernel) hE e he (.start ht) (.start ht) _ (outcome_of_exec hfirst)
  match hr : exec (eval ⟨target, k, E₂, inferKernel target fuel' true⟩ e) (.start t) with
  | (.ok (some type'), m) => exact .inl ⟨type', congrArg Prod.fst hr⟩
  | (.ok none, m) =>
    have hsome := (hknown _ (outcome_of_exec (hsecond.trans hr))).1 rfl
    cases hsome
  | (.error halt, m) =>
    have hlasting := hlasts halt (outcome_of_exec (hsecond.trans hr))
    cases halt with
    | exhausted => exact absurd (congrArg Prod.fst hr) hends
    | fault f => exact .inr ⟨f, congrArg Prod.fst hr, hlasting⟩

/-- The norm of a magnitude, cast to a small integer. -/
def smallNorm : Expr :=
  .cast (.scalar .int8) (.call (.entry "norm") [.call (.entry "abs") [.var "x"] []] [])

/-- The type of this expression, with these types of the names. -/
def typeOfNorm (fuel : Nat) (types : List (String × ElementType)) :
    Outcome (Option ElementType) :=
  (exec (eval ⟨.cLike, untypedKernel, .ofList types, inferKernel .cLike fuel true⟩ smallNorm)
    (.start normTable)).1

theorem generic_of_mentions_smallNorm (callee : Callee) (h : smallNorm.Mentions callee) :
    Generic normTable callee := by
  have hnorm : normTable.get? "norm" = some (.ofKernel normKernel) := by cbv
  have habs : normTable.get? "abs" = some (.ofBuiltin .abs) := by cbv
  obtain ⟨d, hd, hcallee⟩ := h
  have hsubterms : smallNorm.subterms.filterMap Expr.callee? = [.entry "norm", .entry "abs"] := by
    cbv
  have hmem : callee ∈ [Callee.entry "norm", .entry "abs"] :=
    hsubterms ▸ List.mem_filterMap.2 ⟨d, hd, hcallee⟩
  simp only [List.mem_cons, List.not_mem_nil, or_false] at hmem
  rcases hmem with rfl | rfl
  · exact .ofKernel hnorm
  · exact .ofBuiltin habs

theorem eval_knownToo_smallNorm :
    typeOfNorm 8 [("x", .float32)] = .ok (some (.scalar .int8)) ∧
      ((∃ type, typeOfNorm 9 [("x", .scalar .int64), ("y", .handle "handle_t")] = .ok (some type)) ∨
        ∃ f, typeOfNorm 9 [("x", .scalar .int64), ("y", .handle "handle_t")] = .error (.fault f) ∧
          f.isTemporary = false) := by
  have hfirst : typeOfNorm 8 [("x", .float32)] = .ok (some (.scalar .int8)) := by cbv
  have hsecond : (typeOfNorm 9 [("x", .scalar .int64), ("y", .handle "handle_t")]).isOk = true := by
    cbv
  refine ⟨hfirst, eval_knownToo rfl generic_of_mentions_smallNorm (fun name hname => ?_)
    (Prod.ext hfirst rfl) fun hends => ?_⟩
  · rw [Std.ExtTreeMap.mem_ofList] at hname ⊢
    have hx : name = "x" := by simpa using hname
    simp [hx]
  · unfold typeOfNorm at hsecond
    rw [hends] at hsecond
    cases hsecond

end KernelTyping
