import KernelTyping.Evaluation.Basic

/-!
# KernelTyping.Proofs.Evaluation.Run — what an evaluation does from a state

`exec x s` is the result of an evaluation `x` from the state `s`, with the state it leaves.  One
equation for each way in which evaluations are put together; later proofs do not look into the
monad again.
-/

namespace KernelTyping.Evaluation

variable {α β : Type}

/-- The result of an evaluation from a state, and the state it leaves. -/
def exec (x : Eval α) (s : State) : Except Halt α × State := x.run.run s

@[simp] theorem exec_pure (a : α) (s : State) : exec (pure a) s = (.ok a, s) := rfl

theorem exec_bind (x : Eval α) (f : α → Eval β) (s : State) :
    exec (x >>= f) s =
      match exec x s with
      | (.ok a, s') => exec (f a) s'
      | (.error h, s') => (.error h, s') := by
  show (match exec x s with
    | (a, s') => (ExceptT.bindCont f a).run s') = _
  cases exec x s with
  | mk a s' => cases a <;> rfl

theorem exec_bind_of_ok {x : Eval α} {f : α → Eval β} {s s' : State} {a : α}
    (h : exec x s = (.ok a, s')) : exec (x >>= f) s = exec (f a) s' := by
  rw [exec_bind, h]

/-- A sequence succeeds when its parts do, one after the other. -/
theorem exec_bind_eq_ok {x : Eval α} {f : α → Eval β} {s s' : State} {b : β} :
    exec (x >>= f) s = (.ok b, s') ↔
      ∃ a m, exec x s = (.ok a, m) ∧ exec (f a) m = (.ok b, s') := by
  rw [exec_bind]
  constructor
  · intro h
    match hx : exec x s, h with
    | (.ok a, m), h => exact ⟨a, m, rfl, h⟩
  · rintro ⟨a, m, hx, hf⟩
    rw [hx]
    exact hf

@[simp] theorem exec_fault (cause : Fault) (s : State) :
    exec (fault cause : Eval α) s = (.error (.fault cause), s) := rfl

@[simp] theorem exec_throw (h : Halt) (s : State) :
    exec (throw h : Eval α) s = (.error h, s) := rfl

@[simp] theorem exec_get (s : State) : exec get s = (.ok s, s) := rfl

@[simp] theorem exec_modify (f : State → State) (s : State) :
    exec (modify f) s = (.ok (), f s) := rfl

/-- An outcome takes part in an evaluation without a change of the state. -/
@[simp] theorem exec_outcome (x : Outcome α) (s : State) :
    exec (liftM x : Eval α) s = (x, s) := rfl

theorem lift_ok (a : α) : (liftM (Except.ok a : Except Fault α) : Eval α) = pure a := rfl

theorem lift_error (f : Fault) :
    (liftM (Except.error f : Except Fault α) : Eval α) = fault f := rfl

theorem eq_ok_of_exec_lift {x : Except Fault α} {a : α} {s s' : State}
    (h : exec (liftM x : Eval α) s = (.ok a, s')) : x = .ok a := by
  cases x with
  | ok b => rw [Except.ok.inj (Prod.mk.inj h).1]
  | error f => cases h

theorem eq_of_exec_pure {a b : α} {s s' : State} (h : exec (pure a) s = (.ok b, s')) : a = b :=
  Except.ok.inj (Prod.mk.inj h).1

/-- A list is evaluated to as many results. -/
theorem length_eq_of_exec_mapM {α β : Type} {f : α → Eval β} {xs : List α} {ys : List β}
    {s s' : State}
    (h : exec (xs.mapM f) s = (.ok ys, s')) : ys.length = xs.length := by
  induction xs generalizing s s' ys with
  | nil =>
    rw [← eq_of_exec_pure h]
    rfl
  | cons x xs ih =>
    rw [List.mapM_cons] at h
    obtain ⟨y, m, -, h⟩ := exec_bind_eq_ok.1 h
    obtain ⟨zs, m', hrest, h⟩ := exec_bind_eq_ok.1 h
    rw [← eq_of_exec_pure h, List.length_cons, List.length_cons, ih hrest]

/-! ### Variables -/

/-- The state with a name whose type is missing, if it is. -/
def State.noteIf (s : State) (missing : Bool) (name : String) : State :=
  if missing then { s with unknown := s.unknown.insert name } else s

/-- The type of a name does not depend on the state, which at most notes that it is missing. -/
theorem exists_exec_variableType (ctx : Context) (name : String) :
    ∃ type? missing, ∀ s, exec (variableType ctx name) s = (type?, s.noteIf missing name) := by
  unfold variableType
  split
  · exact ⟨_, false, fun s => rfl⟩
  · split
    · exact ⟨_, false, fun s => rfl⟩
    · split
      · exact ⟨_, false, fun s => rfl⟩
      · split
        · split
          · exact ⟨_, true, fun s => rfl⟩
          · exact ⟨_, false, fun s => rfl⟩
        · split
          · exact ⟨_, false, fun s => rfl⟩
          · exact ⟨_, false, fun s => rfl⟩

end KernelTyping.Evaluation
