import KernelTyping.Proofs.Inference.Writers

/-!
# KernelTyping.Proofs.Inference.Fuel — more fuel changes no answer

An outcome is answered by another one that is the same unless the first has run out of fuel
(`Outcome.AnsweredBy`).  Fuel is spent in two places, on the kernels that are called and on the
turns of a component; everything else only passes on what it is given, so that evaluation, passes
and inference are answered by themselves with more of it (`infer_of_le`).
-/

namespace KernelTyping

open Evaluation

/-! ### Outcomes -/

/-- The second outcome is the first one, unless that has run out of fuel. -/
def Outcome.AnsweredBy {α : Type} (x y : Outcome α) : Prop := x ≠ .error .exhausted → y = x

namespace Outcome.AnsweredBy

variable {α β : Type} {x y : Outcome α}

theorem refl (x : Outcome α) : x.AnsweredBy x := fun _ => rfl

theorem exhausted (y : Outcome α) : Outcome.AnsweredBy (.error .exhausted) y :=
  fun h => absurd rfl h

theorem bind {f g : α → Outcome β} (h : x.AnsweredBy y) (hfg : ∀ a, (f a).AnsweredBy (g a)) :
    Outcome.AnsweredBy (x >>= f) (y >>= g) := by
  intro hends
  have hx : x ≠ .error .exhausted := by
    rintro rfl
    exact hends rfl
  rw [h hx]
  cases x with
  | error e => rfl
  | ok a => exact hfg a hends

/-- Outcomes that start alike. -/
theorem bind_same {f g : α → Outcome β} (hfg : ∀ a, (f a).AnsweredBy (g a)) :
    Outcome.AnsweredBy (x >>= f) (x >>= g) := (refl x).bind hfg

theorem foldlM {f g : β → α → Outcome β} {xs : List α}
    (hfg : ∀ b, ∀ a ∈ xs, (f b a).AnsweredBy (g b a)) (b : β) :
    Outcome.AnsweredBy (xs.foldlM f b) (xs.foldlM g b) := by
  induction xs generalizing b with
  | nil => exact refl _
  | cons a xs ih =>
    rw [List.foldlM_cons, List.foldlM_cons]
    exact (hfg b a (by simp)).bind fun b => ih (fun b a ha => hfg b a (by simp [ha])) b

end Outcome.AnsweredBy

/-- Inference of the second kind answers what that of the first kind answers. -/
def Inference.AnsweredBy (infer infer' : Inference) : Prop :=
  ∀ k t, (infer k t).AnsweredBy (infer' k t)

namespace Evaluation

/-! ### Evaluation -/

/-- From every state the second evaluation gives what the first gives, unless that runs out of
fuel. -/
def Answered (α : Type) (x y : Eval α) : Prop :=
  ∀ s, (exec x s).1 ≠ .error .exhausted → exec y s = exec x s

theorem compatible_answered : Compatible Answered where
  pure a s _ := rfl
  bind {α β x y f g} h hfg s hends := by
    rw [exec_bind] at hends
    rw [exec_bind, exec_bind]
    have hx := h s
    match hxs : exec x s with
    | (.ok a, m) =>
      rw [hxs] at hx hends
      rw [hx nofun]
      exact hfg a m hends
    | (.error e, m) =>
      rw [hxs] at hx hends
      rw [hx fun he => hends (congrArg _ (Except.error.inj he))]
  fault cause s _ := rfl
  notKnownYet e s _ := rfl

variable (ctx : Context) {infer : Inference} (h : ctx.infer.AnsweredBy infer)

include h

theorem answeredBy_specialize (c : Callable) (incoming : Incoming) (t : Table) :
    Outcome.AnsweredBy (c.specialize ctx.target ctx.infer ctx.kernel incoming t)
      (c.specialize ctx.target infer ctx.kernel incoming t) := by
  unfold Callable.specialize
  cases c.implementation with
  | builtin f => exact .refl _
  | matched matcher spelling => exact .refl _
  | kernel callee =>
    unfold Callable.specializeKernel
    refine .bind_same fun callee => ?_
    dsimp only
    split
    · exact .refl _
    · exact (h callee t).bind fun _ => .refl _

theorem answeredBy_resolution (callee : Callee) (args : List Expr)
    (keywords : List (String × Expr)) (types : List (Option ElementType)) (t : Table) :
    Outcome.AnsweredBy (resolution ctx callee args keywords types t)
      (resolution { ctx with infer } callee args keywords types t) := by
  cases callee with
  | bare name => exact .refl _
  | entry name =>
    refine .bind ?_ fun _ => .refl _
    unfold specializeEntry
    cases t.get? name with
    | none => exact .refl _
    | some c => exact .bind_same fun _ => answeredBy_specialize ctx h c _ t

theorem answered_callResults (callee : Callee) (args : List Expr)
    (keywords : List (String × Expr)) (types : List (Option ElementType)) :
    Answered _ (callResults ctx callee args keywords types)
      (callResults { ctx with infer } callee args keywords types) := by
  intro s hends
  have hresolution := answeredBy_resolution ctx h callee args keywords types s.table
  rw [exec_callResults] at hends ⊢
  rw [exec_callResults, hresolution]
  intro hexhausted
  rw [hexhausted] at hends
  exact hends rfl

theorem answered_eval (e : Expr) : Answered _ (eval ctx e) (eval { ctx with infer } e) := by
  refine compatible_answered.eval ?_ e (fun name _ s _ => ?_)
    fun callee args keywords types _ => answered_callResults ctx h callee args keywords types
  · rfl
  · rfl

theorem answered_evalTuple (e : Expr) :
    Answered _ (evalTuple ctx e) (evalTuple { ctx with infer } e) := by
  refine compatible_answered.evalTuple ?_ e (fun name _ s _ => ?_)
    fun callee args keywords types _ => answered_callResults ctx h callee args keywords types
  · rfl
  · rfl

theorem relatedAt_answered (i : Instruction) :
    RelatedAt Answered ctx { ctx with infer } i where
  eval {value} _ := answered_eval ctx h value
  evalTuple {value} _ := answered_evalTuple ctx h value

end Evaluation

namespace Inference

/-! ### Passes -/

theorem answeredBy_attempt {α : Type} {x y : Eval (Option α)} (h : Answered _ x y) (t : Table) :
    (attempt x t).AnsweredBy (attempt y t) := by
  intro hends
  rw [attempt_eq] at hends
  rw [attempt_eq, attempt_eq, h (.start t)]
  intro hexhausted
  generalize exec x (.start t) = r at hends hexhausted
  obtain ⟨found, s⟩ := r
  obtain rfl : found = .error .exhausted := hexhausted
  exact hends rfl

section Passes

variable {ctx : Context} {infer : Inference} (h : ctx.infer.AnsweredBy infer) {complete : Bool}

include h

/-- What the loop of a component comes to, it comes to with more fuel as well, its own and that of
the kernels that are called. -/
theorem answeredBy_settle {members : List Member} {onePass : Bool} {fuel fuel' : Nat}
    (hle : fuel ≤ fuel') (queue : List Member) (failed : NameSet) (changed : Bool) (p : Progress) :
    (settle ctx members onePass complete fuel queue failed changed p).AnsweredBy
      (settle { ctx with infer } members onePass complete fuel' queue failed changed p) := by
  induction fuel generalizing fuel' queue failed changed p with
  | zero => exact .exhausted _
  | succ fuel ih =>
    obtain ⟨fuel', rfl⟩ : ∃ n, fuel' = n + 1 := ⟨fuel' - 1, by omega⟩
    have hle : fuel ≤ fuel' := by omega
    cases queue with
    | nil =>
      rw [settle, settle]
      split
      · exact ih hle members failed false p
      · exact .refl _
    | cons m queue =>
      have hwritten : Answered _ (writtenType { ctx with env := p.env } m)
          (writtenType { ctx with env := p.env, infer } m) :=
        compatible_answered.writtenType fun i _ =>
          relatedAt_answered { ctx with env := p.env } h i
      rw [settle, settle]
      refine (answeredBy_attempt hwritten p.table).bind fun r => ?_
      obtain ⟨found, s⟩ := r
      cases found with
      | some type =>
        dsimp only
        split
        · exact ih hle queue failed changed _
        · exact ih hle queue ∅ true _
      | none =>
        dsimp only
        split
        · exact .refl _
        · exact ih hle (queue ++ [m]) _ changed p

theorem answeredBy_resolveCalls (p : Progress) (i : Instruction) :
    (resolveCalls ctx p i).AnsweredBy (resolveCalls { ctx with infer } p i) := by
  have hvisit : Answered _ (visit { ctx with env := p.env } i)
      (visit { ctx with env := p.env, infer } i) :=
    compatible_answered.visit (relatedAt_answered { ctx with env := p.env } h i)
  exact (answeredBy_attempt hvisit p.table).bind fun _ => .refl _

variable (ctx complete) in
theorem answeredBy_inferExpanded {fuel fuel' : Nat} (hle : fuel ≤ fuel') (t : Table) :
    (inferExpanded ctx complete fuel t).AnsweredBy
      (inferExpanded { ctx with infer } complete fuel' t) := by
  refine .bind (.foldlM (fun p names _ => ?_) _) fun p => .foldlM (fun p i _ => ?_) p
  · exact answeredBy_settle h hle _ ∅ false p
  · exact answeredBy_resolveCalls h p i

end Passes

/-- A component that is settled is settled with more fuel as well. -/
theorem settleComponent_of_le {ctx : Context} {d : Dependencies} {complete : Bool}
    (fuel fuel' : Nat) (p : Progress) (names : List String)
    (h : settleComponent ctx d complete fuel p names ≠ .error .exhausted) (hle : fuel ≤ fuel') :
    settleComponent ctx d complete fuel' p names = settleComponent ctx d complete fuel p names :=
  answeredBy_settle (fun _ _ => .refl _) hle _ ∅ false p h

theorem answeredBy_inferWith {target : Target} {infer infer' : Inference}
    (h : infer.AnsweredBy infer') {fuel fuel' : Nat} (hle : fuel ≤ fuel') (complete : Bool)
    (k : Kernel) (t : Table) :
    (inferWith target infer complete fuel k t).AnsweredBy
      (inferWith target infer' complete fuel' k t) := by
  unfold inferWith
  by_cases ht : t.isEditing
  · simp only [ht, Bool.not_true, Bool.false_eq_true, if_false]
    refine .bind_same fun e => ?_
    have hexpanded := answeredBy_inferExpanded ⟨target, e, startEnv e, infer⟩ h complete hle t
    exact hexpanded.bind fun p => .refl _
  · simp only [ht, Bool.not_false, if_true]
    exact .refl (.error (.fault (.inferenceNotEditing k.name)))

end Inference

open Inference

/-! ### Inference -/

/-- What inference on a kernel answers, it answers with more fuel as well. -/
theorem answeredBy_inferKernel (target : Target) {fuel fuel' : Nat} (hle : fuel ≤ fuel')
    (complete : Bool) (k : Kernel) (t : Table) :
    (inferKernel target fuel complete k t).AnsweredBy (inferKernel target fuel' complete k t) := by
  induction fuel generalizing fuel' complete k t with
  | zero => exact .exhausted _
  | succ fuel ih =>
    obtain ⟨fuel', rfl⟩ : ∃ n, fuel' = n + 1 := ⟨fuel' - 1, by omega⟩
    have hle : fuel ≤ fuel' := by omega
    exact answeredBy_inferWith (ih hle true) hle complete k t

/-- What inference answers, it answers with more fuel as well. -/
theorem infer_of_le {target : Target} {fuel fuel' : Nat} {complete : Bool} {k : Kernel} {t : Table}
    (h : infer target fuel complete k t ≠ .error .exhausted) (hle : fuel ≤ fuel') :
    infer target fuel' complete k t = infer target fuel complete k t := by
  have hkernel := answeredBy_inferKernel target hle complete k t.beginEdit.1
  exact hkernel.bind (fun _ => .refl _) h

end KernelTyping
