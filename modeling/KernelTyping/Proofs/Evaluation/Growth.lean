import KernelTyping.Inference.Component
import KernelTyping.Proofs.Evaluation.Resolution
import KernelTyping.Proofs.Renames

/-!
# KernelTyping.Proofs.Evaluation.Growth — what an evaluation does to its state

Whatever an evaluation finds, the table only grows, and every recorded call has an entry of the
table (`State.Sound`).  A relation between states that is reflexive and transitive holds of a whole
evaluation if it holds of the two steps that change the state: to note a name whose type is missing,
and to resolve a call (`Evolution`).
-/

namespace KernelTyping.Evaluation

/-! ### Steps of the state -/

/-- An evaluation that succeeds takes each state to a related one. -/
def Evolves (T : State → State → Prop) {α : Type} (x : Eval α) : Prop :=
  ∀ ⦃s : State⦄ ⦃a : α⦄ ⦃s' : State⦄, exec x s = (.ok a, s') → T s s'

/-- A relation between the states before and after an evaluation. -/
structure Evolution (ctx : Context) (T : State → State → Prop) : Prop where
  refl (s : State) : T s s
  trans {s₁ s₂ s₃ : State} : T s₁ s₂ → T s₂ s₃ → T s₁ s₃
  /-- A name whose type is missing is noted. -/
  note (s : State) (name : String) : T s { s with unknown := s.unknown.insert name }
  /-- A call is resolved. -/
  resolve {callee : Callee} {args : List Expr} {keywords : List (String × Expr)}
    {types : List (Option ElementType)} {s : State} {resolved : Option Resolved} {table : Table} :
    resolution ctx callee args keywords types s.table = .ok (resolved, table) →
      T s (s.resolve (.call callee args keywords) resolved table)

namespace Evolution

variable {ctx : Context} {T : State → State → Prop} (hT : Evolution ctx T)

include hT

theorem bind {α β : Type} {x : Eval α} {f : α → Eval β} (hx : Evolves T x)
    (hf : ∀ a, Evolves T (f a)) : Evolves T (x >>= f) := by
  intro s b s' h
  obtain ⟨a, m, hxs, hfm⟩ := exec_bind_eq_ok.1 h
  exact hT.trans (hx hxs) (hf a hfm)

theorem pure {α : Type} (a : α) : Evolves T (pure a : Eval α) := by
  intro s b s' h
  obtain ⟨-, rfl⟩ := Prod.mk.inj h
  exact hT.refl s

theorem compatible : Compatible fun _ x y => x = y ∧ Evolves T x where
  pure a := ⟨rfl, hT.pure a⟩
  bind h hfg := ⟨by rw [h.1, funext fun a => (hfg a).1], hT.bind h.2 fun a => (hfg a).2⟩
  fault cause := ⟨rfl, fun _ _ _ h => nomatch h⟩
  notKnownYet e := ⟨rfl, fun _ _ _ h => nomatch h⟩

/-- An element of a list is evaluated between the states before and after the list, and what it
gives is among the results. -/
theorem exists_of_mapM {α β : Type} {f : α → Eval β} {xs : List α} {ys : List β} {s s' : State}
    (hf : ∀ x ∈ xs, Evolves T (f x)) (h : exec (xs.mapM f) s = (.ok ys, s')) {x : α}
    (hx : x ∈ xs) : ∃ y ∈ ys, ∃ m m', T s m ∧ exec (f x) m = (.ok y, m') ∧ T m' s' := by
  induction xs generalizing s ys with
  | nil => cases hx
  | cons first rest ih =>
    rw [List.mapM_cons] at h
    obtain ⟨y, m, hfirst, h⟩ := exec_bind_eq_ok.1 h
    obtain ⟨ys', m', hrest, h⟩ := exec_bind_eq_ok.1 h
    obtain ⟨hys, rfl⟩ := Prod.mk.inj h
    obtain rfl := Except.ok.inj hys
    have hf' : ∀ x ∈ rest, Evolves T (f x) := fun x hx => hf x (by simp [hx])
    rcases List.mem_cons.1 hx with rfl | hx
    · have hstep : T m m' := (hT.compatible.mapM fun x hx => ⟨rfl, hf' x hx⟩).2 hrest
      exact ⟨y, by simp, s, m, hT.refl s, hfirst, hstep⟩
    · have hstep : T s m := hf first (by simp) hfirst
      obtain ⟨y', hy', r, r', hr, hexec, hend⟩ := ih hf' hrest hx
      exact ⟨y', by simp [hy'], r, r', hT.trans hstep hr, hexec, hend⟩

theorem variableType (name : String) : Evolves T (variableType ctx name) := by
  intro s type s' h
  obtain ⟨type?, missing, hexec⟩ := exists_exec_variableType ctx name
  rw [hexec] at h
  obtain ⟨-, rfl⟩ := Prod.mk.inj h
  cases missing with
  | true => exact hT.note s name
  | false => exact hT.refl s

theorem callResults (callee : Callee) (args : List Expr) (keywords : List (String × Expr))
    (types : List (Option ElementType)) : Evolves T (callResults ctx callee args keywords types) := by
  intro s results s' h
  rw [exec_callResults] at h
  cases hresolution : resolution ctx callee args keywords types s.table with
  | error e =>
    rw [hresolution] at h
    cases h
  | ok r =>
    rw [hresolution] at h
    obtain ⟨-, rfl⟩ := Prod.mk.inj h
    exact hT.resolve hresolution

theorem eval (e : Expr) : Evolves T (eval ctx e) :=
  (hT.compatible.eval rfl e (fun name _ => ⟨rfl, hT.variableType name⟩)
    fun callee args keywords types _ => ⟨rfl, hT.callResults callee args keywords types⟩).2

theorem evalTuple (e : Expr) : Evolves T (evalTuple ctx e) :=
  (hT.compatible.evalTuple rfl e (fun name _ => ⟨rfl, hT.variableType name⟩)
    fun callee args keywords types _ => ⟨rfl, hT.callResults callee args keywords types⟩).2

end Evolution

/-! ### Without calls -/

/-- The evaluation leaves the table and the recorded calls as they are, and comes to an end. -/
def Quiet (α : Type) (x y : Eval α) : Prop :=
  x = y ∧ ∀ s, (exec x s).1 ≠ .error .exhausted ∧ (exec x s).2.table = s.table ∧
    (exec x s).2.renames = s.renames

theorem compatible_quiet : Compatible Quiet where
  pure a := ⟨rfl, fun s => ⟨nofun, rfl, rfl⟩⟩
  bind {α β x y f g} hx hf := by
    refine ⟨by rw [hx.1, funext fun a => (hf a).1], fun s => ?_⟩
    rw [exec_bind]
    obtain ⟨hends, htable, hrenames⟩ := hx.2 s
    match hxs : exec x s with
    | (.ok a, m) =>
      rw [hxs] at htable hrenames
      obtain ⟨hends', htable', hrenames'⟩ := (hf a).2 m
      exact ⟨hends', htable'.trans htable, hrenames'.trans hrenames⟩
    | (.error e, m) =>
      rw [hxs] at hends htable hrenames
      exact ⟨fun h => hends (congrArg _ (Except.error.inj h)), htable, hrenames⟩
  fault cause := ⟨rfl, fun s => ⟨nofun, rfl, rfl⟩⟩
  notKnownYet e := ⟨rfl, fun s => ⟨nofun, rfl, rfl⟩⟩

theorem quiet_variableType {ctx : Context} (name : String) :
    Quiet _ (variableType ctx name) (variableType ctx name) := by
  refine ⟨rfl, fun s => ⟨?_, ?_⟩⟩
  · unfold variableType
    split
    · exact nofun
    · split
      · exact nofun
      · split
        · exact nofun
        · split
          · split <;> exact nofun
          · split <;> exact nofun
  · obtain ⟨type?, missing, hexec⟩ := exists_exec_variableType ctx name
    rw [hexec]
    cases missing <;> exact ⟨rfl, rfl⟩

theorem quiet_eval {ctx : Context} {e : Expr}
    (h : ∀ callee args keywords, ¬Visits e (.call callee args keywords)) :
    Quiet _ (eval ctx e) (eval ctx e) :=
  compatible_quiet.eval rfl e (fun name _ => quiet_variableType name)
    fun callee args keywords _ hvisits => absurd hvisits (h callee args keywords)

theorem quiet_evalTuple {ctx : Context} {e : Expr}
    (h : ∀ callee args keywords, ¬VisitsValue true e (.call callee args keywords)) :
    Quiet _ (evalTuple ctx e) (evalTuple ctx e) :=
  compatible_quiet.evalTuple rfl e (fun name _ => quiet_variableType name)
    fun callee args keywords _ hvisits => absurd hvisits (h callee args keywords)

/-! ### Sound states -/

/-- A state inside a transaction in which every recorded call has an entry of the table. -/
structure State.Sound (s : State) : Prop where
  editing : s.table.isEditing = true
  proper : s.renames.Proper
  entry {call : Expr} {name : String} :
    s.renames.get? call = some name → s.table.contains name = true

theorem State.Sound.start {table : Table} (h : table.isEditing = true) :
    (State.start table).Sound where
  editing := h
  proper := .empty
  entry hname := nomatch hname

variable {ctx : Context}

/-- A resolution only adds to the table, and the call resolves to an entry of it. -/
theorem resolution_spec (hinfer : GrowsTable ctx.infer) {callee : Callee} {args : List Expr}
    {keywords : List (String × Expr)} {types : List (Option ElementType)} {t u : Table}
    {resolved : Option Resolved} (hedit : t.isEditing = true)
    (h : resolution ctx callee args keywords types t = .ok (resolved, u)) :
    t.Grows u ∧ ∀ results name, resolved = some (results, name) → u.contains name = true := by
  rw [resolution_eq hinfer hedit] at h
  cases hanswer : answer ctx callee args keywords types t with
  | error _ =>
    rw [hanswer] at h
    cases h
  | ok found =>
    obtain ⟨a, v⟩ := found
    have hgrows := answer_grows hinfer hanswer
    rw [hanswer] at h
    cases a with
    | none =>
      obtain ⟨rfl, rfl⟩ := Prod.mk.inj (Except.ok.inj h)
      exact ⟨hgrows, fun _ _ hname => nomatch hname⟩
    | some a =>
      obtain ⟨c, results⟩ := a
      obtain ⟨rfl, rfl⟩ := Prod.mk.inj (Except.ok.inj h)
      have hedit' : v.isEditing = true := hgrows.isEditing_eq.trans hedit
      refine ⟨hgrows.trans (.put hedit' _ _), fun _ _ hname => ?_⟩
      obtain ⟨-, rfl⟩ := Prod.mk.inj (Option.some.inj hname)
      rw [Table.contains_eq_isSome, Table.get?_put]
      rfl

/-- What an evaluation does to a sound state. -/
theorem evolution_grows (hinfer : GrowsTable ctx.infer) :
    Evolution ctx fun s s' => s.Sound → s.table.Grows s'.table ∧ s'.Sound where
  refl s hs := ⟨.refl _, hs⟩
  trans h h' hs := ⟨(h hs).1.trans (h' (h hs).2).1, (h' (h hs).2).2⟩
  note s name hs := ⟨.refl _, ⟨hs.editing, hs.proper, hs.entry⟩⟩
  resolve {callee args keywords types s resolved table} h hs := by
    obtain ⟨hgrows, hname⟩ := resolution_spec hinfer hs.editing h
    have hedit : table.isEditing = true := hgrows.isEditing_eq.trans hs.editing
    refine ⟨hgrows, ?_⟩
    cases resolved with
    | none => exact ⟨hedit, hs.proper, fun h => hgrows.contains (hs.entry h)⟩
    | some resolved =>
      obtain ⟨results, new⟩ := resolved
      refine ⟨hedit, hs.proper.insert _ _, fun {call name} hcall => ?_⟩
      rw [State.resolve, Renames.get?_insert] at hcall
      split at hcall
      · obtain rfl := Option.some.inj hcall
        exact hname results _ rfl
      · exact hgrows.contains (hs.entry hcall)

/-! ### Growing tables -/

/-- Resolution only adds to the table. -/
theorem resolution_grows (hinfer : GrowsTable ctx.infer) {callee : Callee} {args : List Expr}
    {keywords : List (String × Expr)} {types : List (Option ElementType)}
    {found : Option Resolved} {t u : Table}
    (h : resolution ctx callee args keywords types t = .ok (found, u)) : t.Grows u := by
  cases callee with
  | entry name =>
    obtain ⟨⟨c, v⟩, hspecialized, h⟩ := bind_eq_ok.1 h
    have hgrows := specializeEntry_grows hinfer hspecialized
    dsimp only at h
    split at h
    · obtain ⟨-, rfl⟩ := Prod.mk.inj (Except.ok.inj h)
      exact hgrows
    · obtain ⟨⟨w, stored⟩, hstored, h⟩ := bind_eq_ok.1 h
      obtain ⟨-, rfl⟩ := Prod.mk.inj (Except.ok.inj h)
      have hstored := Table.store_of_storeSpecialization (Outcome.lift_eq_ok.1 hstored)
      exact hgrows.trans (.of_store hstored)
  | bare name =>
    simp only [resolution, resolutionOfBare] at h
    split at h
    · obtain ⟨-, rfl⟩ := Prod.mk.inj (Except.ok.inj h)
      exact .refl _
    · obtain ⟨⟨w, stored⟩, hstored, h⟩ := bind_eq_ok.1 h
      obtain ⟨-, rfl⟩ := Prod.mk.inj (Except.ok.inj h)
      exact .of_store (Outcome.lift_eq_ok.1 hstored)

theorem evolution_table_grows (hinfer : GrowsTable ctx.infer) :
    Evolution ctx fun s s' => s.table.Grows s'.table where
  refl s := .refl s.table
  trans := .trans
  note _ _ := .refl _
  resolve h := resolution_grows hinfer h

theorem grows_of_exec_mapM (hinfer : GrowsTable ctx.infer) {es : List Expr}
    {types : List (Option ElementType)} {s s' : State}
    (h : exec (es.mapM (eval ctx)) s = (.ok types, s')) : s.table.Grows s'.table :=
  ((evolution_table_grows hinfer).compatible.mapM fun e _ =>
    ⟨rfl, (evolution_table_grows hinfer).eval e⟩).2 h

end KernelTyping.Evaluation
