import KernelTyping.Proofs.Evaluation.Grounded

/-!
# KernelTyping.Proofs.Evaluation.Trace — what an evaluation records for the calls that it visits

`answerOf` asks by itself what a call is, for the types that its arguments have.  An evaluation that
succeeds has asked this of every call that it visits and has recorded those with an answer; and
each name that it recorded is that of an answer (`traced_eval`, `traced_evalTuple`).
-/

namespace KernelTyping.Evaluation

variable (ctx : Context)

/-! ### One call by itself -/

/-- The callable that a call has for these types of its arguments. -/
def answerFor (callee : Callee) (args : List Expr) (keywords : List (String × Expr))
    (types : List (Option ElementType)) : Eval (Option (Callable × List ElementType)) := do
  let (found, table) ← answer ctx callee args keywords types (← get).table
  modify fun s => { s with table }
  return found

/-- The callable that a call has for the types that its arguments have. -/
def answerOf (call : Expr) : Eval (Option (Callable × List ElementType)) :=
  match call with
  | .call callee args keywords =>
    (Expr.call callee args keywords).children.mapM (eval ctx) >>= answerFor ctx callee args keywords
  | _ => return none

variable {ctx}

theorem exec_answerFor (callee : Callee) (args : List Expr) (keywords : List (String × Expr))
    (types : List (Option ElementType)) (s : State) :
    exec (answerFor ctx callee args keywords types) s =
      match answer ctx callee args keywords types s.table with
      | .ok (found, table) => (.ok found, { s with table })
      | .error h => (.error h, s) := by
  unfold answerFor
  simp only [exec_bind, exec_get, exec_outcome]
  match answer ctx callee args keywords types s.table with
  | .ok (_, _) | .error _ => rfl

theorem exec_answerFor_eq_ok {callee : Callee} {args : List Expr}
    {keywords : List (String × Expr)} {types : List (Option ElementType)} {s s' : State}
    {a : Option (Callable × List ElementType)} :
    exec (answerFor ctx callee args keywords types) s = (.ok a, s') ↔
      ∃ t, answer ctx callee args keywords types s.table = .ok (a, t) ∧ s' = { s with table := t } := by
  rw [exec_answerFor]
  cases answer ctx callee args keywords types s.table with
  | error h => simp
  | ok found => simp [Prod.ext_iff, eq_comm, and_comm]

section Repeats

variable {R : String → Prop} (hgrows : GrowsTable ctx.infer) (hreruns : ∀ R, Reruns R ctx.infer)
  (hinfer : Grounding ctx.infer)

include hgrows hreruns hinfer

theorem repeatsAt_answerFor {callee : Callee} (hcallee : ∀ name, callee = .entry name → R name)
    (args : List Expr) (keywords : List (String × Expr)) (types : List (Option ElementType)) :
    RepeatsAt R (answerFor ctx callee args keywords types) where
  grows s a s' h hs := by
    obtain ⟨t, hanswer, rfl⟩ := exec_answerFor_eq_ok.1 h
    have ht : s.table.Grows t := answer_grows hgrows hanswer
    exact ⟨ht, ht.isEditing_eq.trans hs.editing, hs.proper, fun h => ht.contains (hs.entry h)⟩
  grounds s a s' h hs := by
    obtain ⟨t, hanswer, rfl⟩ := exec_answerFor_eq_ok.1 h
    obtain ⟨ht, -⟩ := answer_grounded hinfer
      (fun name hname hcontains => hs.table name (hcallee name hname) hcontains) hanswer
    refine ⟨ht, ⟨?_, hs.sound.proper, ?_⟩, ht.groundedAt hs.table, ?_⟩
    · exact ht.grows.isEditing_eq.trans hs.sound.editing
    · exact fun h => ht.grows.contains (hs.sound.entry h)
    · exact fun hname => (hs.renames hname).grows ht.grows
  rerun {s s' a v} hs h hv := by
    obtain ⟨t, hanswer, rfl⟩ := exec_answerFor_eq_ok.1 h
    -- a name that the call refers to has an entry, since it was answered
    have hentry (name : String) (hname : callee = .entry name) : s.table.Grounded name := by
      subst hname
      exact hs.table name (hcallee name rfl) (contains_of_answer hanswer)
    refine exec_answerFor_eq_ok.2 ⟨v, ?_, rfl⟩
    exact answer_rerun (hreruns _) hentry s.table.linked_grounded hanswer
      (answer_grows hgrows hanswer) hv

/-- A call that has an answer has it again from a table that has grown by grounded entries. -/
theorem repeatsAt_answerOf {call : Expr} (hcall : CallsOnly R call) :
    RepeatsAt R (answerOf ctx call) := by
  cases call with
  | call callee args keywords =>
    have hmem {e : Expr} (he : e ∈ (Expr.call callee args keywords).children) : CallsOnly R e :=
      fun name ⟨d, hd, hname⟩ => hcall name ⟨d, Expr.mem_subterms_of_mem_children he hd, hname⟩
    have hchildren := compatible_repeatsAt.mapM fun e he =>
      (⟨rfl, repeatsAt_eval hgrows hreruns hinfer (hmem he)⟩ : _ ∧ RepeatsAt R (eval ctx e))
    refine hchildren.2.bind fun types =>
      repeatsAt_answerFor hgrows hreruns hinfer (fun name heq => ?_) args keywords types
    exact hcall name ⟨_, Expr.mem_subterms_self _, by rw [heq]; rfl⟩
  | _ => exact (compatible_repeatsAt.pure none).2

end Repeats

/-! ### Only the table decides -/

/-- From states with the same table the evaluations find the same and leave the same table, if they
succeed. -/
def SeesTable (α : Type) (x y : Eval α) : Prop :=
  ∀ s s' a m, s.table = s'.table → exec x s = (.ok a, m) →
    ∃ m', exec y s' = (.ok a, m') ∧ m.table = m'.table

theorem compatible_seesTable : Compatible SeesTable where
  pure a s s' b m h hx := by
    obtain ⟨ha, rfl⟩ := Prod.mk.inj hx
    exact ⟨s', by rw [← ha]; rfl, h⟩
  bind {α β x y f g} hxy hfg s s' b m h hx := by
    obtain ⟨a, r, hx, hf⟩ := exec_bind_eq_ok.1 hx
    obtain ⟨r', hy, hr⟩ := hxy s s' a r h hx
    obtain ⟨m', hg, hm⟩ := hfg a r r' b m hr hf
    exact ⟨m', exec_bind_eq_ok.2 ⟨a, r', hy, hg⟩, hm⟩
  fault cause s s' a m h hx := nomatch hx
  notKnownYet e s s' a m h hx := nomatch hx

theorem table_noteIf (s : State) (missing : Bool) (name : String) :
    (s.noteIf missing name).table = s.table := by
  cases missing <;> rfl

theorem seesTable_variableType (name : String) :
    SeesTable _ (variableType ctx name) (variableType ctx name) := by
  intro s s' a m h hx
  obtain ⟨type?, missing, hexec⟩ := exists_exec_variableType ctx name
  rw [hexec] at hx ⊢
  obtain ⟨ha, rfl⟩ := Prod.mk.inj hx
  exact ⟨_, by rw [ha], by rw [table_noteIf, table_noteIf, h]⟩

theorem seesTable_callResults (callee : Callee) (args : List Expr)
    (keywords : List (String × Expr)) (types : List (Option ElementType)) :
    SeesTable _ (callResults ctx callee args keywords types)
      (callResults ctx callee args keywords types) := by
  intro s s' a m h hx
  rw [exec_callResults] at hx ⊢
  rw [← h]
  cases hresolution : resolution ctx callee args keywords types s.table with
  | error e =>
    rw [hresolution] at hx
    cases hx
  | ok r =>
    obtain ⟨resolved, table⟩ := r
    rw [hresolution] at hx
    obtain ⟨ha, rfl⟩ := Prod.mk.inj hx
    exact ⟨_, Prod.ext ha rfl, rfl⟩

theorem seesTable_eval (e : Expr) : SeesTable _ (eval ctx e) (eval ctx e) :=
  compatible_seesTable.eval rfl e (fun name _ => seesTable_variableType name)
    fun callee args keywords types _ => seesTable_callResults callee args keywords types

theorem seesTable_evalTuple (e : Expr) : SeesTable _ (evalTuple ctx e) (evalTuple ctx e) :=
  compatible_seesTable.evalTuple rfl e (fun name _ => seesTable_variableType name)
    fun callee args keywords types _ => seesTable_callResults callee args keywords types

/-! ### What concludes without a call -/

theorem quiet_conclude {e : Expr} (h : e.isCall = false) (types : List (Option ElementType)) :
    Quiet _ (conclude ctx e types) (conclude ctx e types) := by
  refine compatible_quiet.conclude rfl (fun name _ => quiet_variableType name) ?_ types
  rintro callee args keywords _ rfl
  cases h

theorem quiet_concludeTuple {e : Expr} (h : tupleCall? e = none)
    (types : List (Option ElementType)) :
    Quiet _ (concludeTuple ctx e types) (concludeTuple ctx e types) := by
  refine compatible_quiet.concludeTuple e ?_ types
  intro callee args keywords _ hcall
  rw [h] at hcall
  cases hcall

/-- Where several results are those of a call, nothing is recorded after it. -/
theorem exists_concludeTuple_eq {e call : Expr} (h : tupleCall? e = some call) :
    ∃ callee args keywords, call = .call callee args keywords ∧ tupleOperands e = call.children ∧
      ∃ f, (∀ results, Quiet _ (f results) (f results)) ∧
        ∀ types, concludeTuple ctx e types = callResults ctx callee args keywords types >>= f := by
  induction e using Expr.inductionOnChildren with
  | step e ih =>
    cases e with
    | call callee args keywords =>
      obtain rfl := Option.some.inj h
      exact ⟨callee, args, keywords, rfl, rfl, pure, compatible_quiet.pure,
        fun types => (bind_pure _).symm⟩
    | reduction op inames body =>
      rw [tupleCall?] at h
      split at h
      case isTrue hcond =>
        obtain ⟨hop, hbody⟩ := Bool.and_eq_true_iff.1 hcond
        obtain ⟨callee, args, keywords, rfl, hoperands, f, hf, hconclude⟩ :=
          ih body (by simp [Expr.children]) h
        refine ⟨callee, args, keywords, rfl, by simp [tupleOperands, hop, hbody, hoperands],
          fun results => f results >>= reductionResults op, fun results => ?_, fun types => ?_⟩
        · exact compatible_quiet.bind (hf results) (compatible_quiet.reductionResults op)
        · simp [concludeTuple, hop, hbody, hconclude]
      case isFalse => cases h
    | _ => cases h

/-! ### Answers on the way -/

/-- A call has this answer from a table that lies between two tables. -/
def AnswerBetween (ctx : Context) (t u : Table) (call : Expr)
    (found : Option (Callable × List ElementType)) : Prop :=
  ∃ T m, t.Grows T ∧ exec (answerOf ctx call) (.start T) = (.ok found, m) ∧ m.table.Grows u

theorem AnswerBetween.grows {t t' u u' : Table} {call : Expr}
    {found : Option (Callable × List ElementType)} (h : AnswerBetween ctx t u call found)
    (ht : t'.Grows t) (hu : u.Grows u') : AnswerBetween ctx t' u' call found := by
  obtain ⟨T, m, hT, hexec, hm⟩ := h
  exact ⟨T, m, ht.trans hT, hexec, hm.trans hu⟩

/-- What an evaluation that visits these calls has left behind: each was asked for its answer and
was recorded if it had one, and what is newly recorded is the name of an answer. -/
structure Traced (ctx : Context) (V : Expr → Prop) (s s' : State) : Prop where
  grows : s.table.Grows s'.table
  sound : s'.Sound
  answered {call : Expr} : V call → call.isCall = true →
    ∃ found, AnswerBetween ctx s.table s'.table call found ∧
      (found.isSome = true → s'.renames.contains call = true)
  named {call : Expr} {name : String} : s'.renames.get? call = some name →
    s.renames.get? call = some name ∨
      ∃ c results, AnswerBetween ctx s.table s'.table call (some (c, results)) ∧
        s'.table.get? name = some c
  kept {call : Expr} : s.renames.contains call = true → s'.renames.contains call = true

namespace Traced

variable {V W : Expr → Prop} {s m s' : State}

theorem mono (h : Traced ctx V s s') (hV : ∀ call, W call → V call) : Traced ctx W s s' where
  grows := h.grows
  sound := h.sound
  answered hW := h.answered (hV _ hW)
  named := h.named
  kept := h.kept

theorem trans (h : Traced ctx V s m) (h' : Traced ctx W m s') :
    Traced ctx (fun call => V call ∨ W call) s s' where
  grows := h.grows.trans h'.grows
  sound := h'.sound
  answered := by
    rintro call (hV | hW) hcall
    · obtain ⟨found, hfound, hcontains⟩ := h.answered hV hcall
      exact ⟨found, hfound.grows (.refl _) h'.grows, fun hsome => h'.kept (hcontains hsome)⟩
    · obtain ⟨found, hfound, hcontains⟩ := h'.answered hW hcall
      exact ⟨found, hfound.grows h.grows (.refl _), hcontains⟩
  named hname := by
    rcases h'.named hname with hname | ⟨c, results, hfound, hc⟩
    · rcases h.named hname with hname | ⟨c, results, hfound, hc⟩
      · exact .inl hname
      · exact .inr ⟨c, results, hfound.grows (.refl _) h'.grows, h'.grows.get? hc⟩
    · exact .inr ⟨c, results, hfound.grows h.grows (.refl _), hc⟩
  kept hcontains := h'.kept (h.kept hcontains)

/-- A step that leaves table and records as they are has visited no call. -/
theorem of_eq (hs : s.Sound) (htable : s'.table = s.table) (hrenames : s'.renames = s.renames) :
    Traced ctx (fun _ => False) s s' where
  grows := htable ▸ .refl _
  sound := ⟨htable ▸ hs.editing, hrenames ▸ hs.proper, by rw [htable, hrenames]; exact hs.entry⟩
  answered hV := hV.elim
  named hname := .inl (hrenames ▸ hname)
  kept hcontains := hrenames ▸ hcontains

theorem of_quiet {α : Type} {x : Eval α} {a : α} (hx : Quiet _ x x) (hs : s.Sound)
    (h : exec x s = (.ok a, s')) : Traced ctx (fun _ => False) s s' := by
  obtain ⟨-, htable, hrenames⟩ := hx.2 s
  rw [h] at htable hrenames
  exact .of_eq hs htable hrenames

end Traced

variable {s m s' : State} {V : Expr → Prop}

/-- One more call was asked for its answer and has none. -/
theorem Traced.unanswered (h : Traced ctx V s m) {t : Table} {call : Expr}
    (ht : m.table.Grows t) (hsound : ({ m with table := t } : State).Sound)
    (hasked : AnswerBetween ctx s.table t call none) :
    Traced ctx (fun d => V d ∨ d = call) s { m with table := t } where
  grows := h.grows.trans ht
  sound := hsound
  answered := by
    rintro d (hV | rfl) hcall
    · obtain ⟨found, hfound, hcontains⟩ := h.answered hV hcall
      exact ⟨found, hfound.grows (.refl _) ht, hcontains⟩
    · exact ⟨none, hasked, nofun⟩
  named hname := by
    rcases h.named hname with hname | ⟨c, results, hfound, hc⟩
    · exact .inl hname
    · exact .inr ⟨c, results, hfound.grows (.refl _) ht, ht.get? hc⟩
  kept := h.kept

/-- One more call was asked for its answer, which was recorded. -/
theorem Traced.insert (h : Traced ctx V s m) {call : Expr} {c : Callable}
    {results : List ElementType} {recorded : String} (ht : m.table.Grows s'.table)
    (hrenames : s'.renames = m.renames.insert call recorded) (hsound : s'.Sound)
    (hasked : AnswerBetween ctx s.table s'.table call (some (c, results)))
    (hc : s'.table.get? recorded = some c) : Traced ctx (fun d => V d ∨ d = call) s s' where
  grows := h.grows.trans ht
  sound := hsound
  answered := by
    rintro d (hV | rfl) hcall
    · obtain ⟨found, hfound, hcontains⟩ := h.answered hV hcall
      refine ⟨found, hfound.grows (.refl _) ht, fun hsome => ?_⟩
      simp [hrenames, Renames.contains_insert, hcontains hsome]
    · exact ⟨_, hasked, fun _ => by simp [hrenames, Renames.contains_insert]⟩
  named {d name} hname := by
    rw [hrenames, Renames.get?_insert] at hname
    split at hname
    case isTrue heq =>
      obtain rfl := Option.some.inj hname
      exact .inr ⟨c, results, heq ▸ hasked, hc⟩
    case isFalse =>
      rcases h.named hname with hname | ⟨c', results, hfound, hc'⟩
      · exact .inl hname
      · exact .inr ⟨c', results, hfound.grows (.refl _) ht, ht.get? hc'⟩
  kept hcontains := by simp [hrenames, Renames.contains_insert, h.kept hcontains]

/-- A call whose arguments have been evaluated is asked for its answer, which is recorded. -/
theorem traced_callResults (hgrows : GrowsTable ctx.infer) {callee : Callee} {args : List Expr}
    {keywords : List (String × Expr)} {types : List (Option ElementType)}
    {results : Option (List ElementType)} (hargs : Traced ctx V s m)
    (htypes : exec ((Expr.call callee args keywords).children.mapM (eval ctx)) s = (.ok types, m))
    (h : exec (callResults ctx callee args keywords types) m = (.ok results, s')) :
    Traced ctx (fun call => V call ∨ call = .call callee args keywords) s s' := by
  have hsees : SeesTable _ ((Expr.call callee args keywords).children.mapM (eval ctx))
      ((Expr.call callee args keywords).children.mapM (eval ctx)) :=
    compatible_seesTable.mapM fun e _ => seesTable_eval e
  obtain ⟨m₀, hstart, hm₀⟩ := hsees s (.start s.table) types m rfl htypes
  have hsound := (evolution_grows hgrows).callResults callee args keywords types h hargs.sound
  have hasked {a : Option (Callable × List ElementType)} {t u : Table}
      (hanswer : answer ctx callee args keywords types m.table = .ok (a, t)) (hu : t.Grows u) :
      AnswerBetween ctx s.table u (.call callee args keywords) a := by
    refine ⟨s.table, { m₀ with table := t }, .refl _, ?_, hu⟩
    rw [answerOf, exec_bind_of_ok hstart, exec_answerFor, ← hm₀, hanswer]
  rcases callResults_cases hgrows hargs.sound.editing h with
    ⟨t, hanswer, -, rfl⟩ | ⟨c, found, t, hanswer, -, rfl⟩
  · exact hargs.unanswered (answer_grows hgrows hanswer) hsound.2 (hasked hanswer (.refl _))
  · have ht : m.table.Grows t := answer_grows hgrows hanswer
    have hput : t.Grows (t.put c.name c).1 :=
      .put (ht.isEditing_eq.trans hargs.sound.editing) _ _
    exact hargs.insert (ht.trans hput) rfl hsound.2 (hasked hanswer hput) (t.get?_put _ _)

theorem traced_mapM {es : List Expr} {types : List (Option ElementType)}
    (hes : ∀ e ∈ es, ∀ {s s' : State} {type : Option ElementType}, s.Sound →
      exec (eval ctx e) s = (.ok type, s') → Traced ctx (Visits e) s s')
    (hs : s.Sound) (h : exec (es.mapM (eval ctx)) s = (.ok types, s')) :
    Traced ctx (fun call => ∃ e ∈ es, Visits e call) s s' := by
  induction es generalizing s types with
  | nil =>
    obtain ⟨-, rfl⟩ := Prod.mk.inj h
    exact (Traced.of_eq hs rfl rfl).mono (by simp)
  | cons e es ih =>
    rw [List.mapM_cons] at h
    obtain ⟨type, m, he, h⟩ := exec_bind_eq_ok.1 h
    obtain ⟨types, r, hes', h⟩ := exec_bind_eq_ok.1 h
    obtain ⟨-, rfl⟩ := Prod.mk.inj h
    have hfirst := hes e (by simp) hs he
    have hrest := ih (fun e he => hes e (by simp [he])) hfirst.sound hes'
    exact (hfirst.trans hrest).mono (by simp)

theorem visits_iff {e d : Expr} : Visits e d ↔ d = e ∨ ∃ c ∈ operands e, Visits c d := by
  constructor
  · intro h
    cases h with
    | self => exact .inl rfl
    | operand hc hd => exact .inr ⟨_, hc, hd⟩
  · rintro (rfl | ⟨c, hc, hd⟩)
    · exact .self _
    · exact .operand hc hd

theorem traced_eval (hgrows : GrowsTable ctx.infer) (e : Expr) {s s' : State}
    {type : Option ElementType} (hs : s.Sound) (h : exec (eval ctx e) s = (.ok type, s')) :
    Traced ctx (Visits e) s s' := by
  rw [eval_eq] at h
  obtain ⟨types, m, htypes, h⟩ := exec_bind_eq_ok.1 h
  have hoperands := traced_mapM (fun c hc _ _ _ hs h => traced_eval hgrows c hs h) hs htypes
  cases hcall : e.isCall with
  | false =>
    have hall := hoperands.trans (.of_quiet (quiet_conclude hcall types) hoperands.sound h)
    refine ⟨hall.grows, hall.sound, fun {call} hvisits hcall' => ?_, hall.named, hall.kept⟩
    rcases visits_iff.1 hvisits with rfl | hvisits
    · rw [hcall] at hcall'
      cases hcall'
    · exact hall.answered (.inl hvisits) hcall'
  | true =>
    cases e with
    | call callee args keywords =>
      obtain ⟨results, r, hresults, h⟩ := exec_bind_eq_ok.1 h
      have hrecorded := traced_callResults hgrows hoperands htypes hresults
      have hsingle := compatible_quiet.single (.call callee args keywords) results
      refine (hrecorded.trans (.of_quiet hsingle hrecorded.sound h)).mono fun call hvisits => ?_
      exact .inl (visits_iff.1 hvisits).symm
    | _ => cases hcall
termination_by e.size
decreasing_by exact size_lt_of_mem_operands hc

theorem traced_evalTuple (hgrows : GrowsTable ctx.infer) (e : Expr)
    {types : Option (List ElementType)} (hs : s.Sound)
    (h : exec (evalTuple ctx e) s = (.ok types, s')) : Traced ctx (VisitsValue true e) s s' := by
  rw [evalTuple_eq] at h
  obtain ⟨types, m, htypes, h⟩ := exec_bind_eq_ok.1 h
  have hoperands := traced_mapM (fun c _ _ _ _ hs h => traced_eval hgrows c hs h) hs htypes
  cases hcall : tupleCall? e with
  | none =>
    refine (hoperands.trans (.of_quiet (quiet_concludeTuple hcall types) hoperands.sound h)).mono ?_
    rintro call (_ | ⟨hc, hd⟩ | hd)
    · exact .inl ⟨_, hc, hd⟩
    · rw [hcall] at hd
      cases hd
  | some call =>
    obtain ⟨callee, args, keywords, rfl, hchildren, f, hf, hconclude⟩ :=
      exists_concludeTuple_eq hcall
    rw [hconclude] at h
    obtain ⟨results, r, hresults, h⟩ := exec_bind_eq_ok.1 h
    have hrecorded := traced_callResults hgrows hoperands (hchildren ▸ htypes) hresults
    refine (hrecorded.trans (.of_quiet (hf results) hrecorded.sound h)).mono ?_
    rintro call (_ | ⟨hc, hd⟩ | hd)
    · exact .inl (.inl ⟨_, hc, hd⟩)
    · exact .inl (.inr (Option.some.inj (hd.symm.trans hcall)))

end KernelTyping.Evaluation
