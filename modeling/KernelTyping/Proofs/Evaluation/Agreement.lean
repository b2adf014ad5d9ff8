import KernelTyping.Proofs.Evaluation.Environment
import KernelTyping.Proofs.Evaluation.Growth
import KernelTyping.Proofs.Expansion

/-!
# KernelTyping.Proofs.Evaluation.Agreement — evaluation from two tables that agree

Two tables agree on a set of names that is closed under references if each name has the same entry
in both.  An evaluation that calls only such entries gives the same types and the same faults from
either table.  The names of the specializations may differ (`State.Alike`).
-/

namespace KernelTyping

/-! ### Outcomes that match -/

/-- Both outcomes are results that are related, or both stop for the same cause. -/
inductive Matches {ε α β : Type} (R : α → β → Prop) : Except ε α → Except ε β → Prop where
  | ok {a : α} {b : β} : R a b → Matches R (.ok a) (.ok b)
  | error (e : ε) : Matches R (.error e) (.error e)

namespace Matches

variable {ε α β γ δ : Type} {R : α → β → Prop} {S : γ → δ → Prop}

theorem bind {x : Except ε α} {y : Except ε β} {f : α → Except ε γ} {g : β → Except ε δ}
    (h : Matches R x y) (hfg : ∀ a b, R a b → Matches S (f a) (g b)) :
    Matches S (x >>= f) (y >>= g) := by
  cases h with
  | ok h => exact hfg _ _ h
  | error e => exact .error e

/-- Outcomes that start alike. -/
theorem bind_same {x : Except ε α} {f : α → Except ε γ} {g : α → Except ε δ}
    (hfg : ∀ a, x = .ok a → Matches S (f a) (g a)) : Matches S (x >>= f) (x >>= g) := by
  cases x with
  | ok a => exact hfg a rfl
  | error e => exact .error e

theorem imp {R' : α → β → Prop} {x : Except ε α} {y : Except ε β} (h : Matches R x y)
    (hR : ∀ a b, x = .ok a → y = .ok b → R a b → R' a b) : Matches R' x y := by
  cases h with
  | ok h => exact .ok (hR _ _ rfl rfl h)
  | error e => exact .error e

theorem exists_of_ok {a : α} {y : Except ε β} (h : Matches R (.ok a) y) :
    ∃ b, y = .ok b ∧ R a b := by
  cases h with
  | ok h => exact ⟨_, rfl, h⟩

theorem exists_of_ok_right {x : Except ε α} {b : β} (h : Matches R x (.ok b)) :
    ∃ a, x = .ok a ∧ R a b := by
  cases h with
  | ok h => exact ⟨_, rfl, h⟩

theorem lift {x : Except Fault α} {y : Except Fault β} (h : Matches R x y) :
    Matches R (liftM x : Outcome α) (liftM y : Outcome β) := by
  cases h with
  | ok h => exact .ok h
  | error e => exact .error _

end Matches

/-! ### Tables that agree -/

namespace Table

/-- The names have the same entries in both tables, and these refer to no other names. -/
def Agree (R : String → Prop) (t u : Table) : Prop :=
  ∀ name, R name → ∃ c, t.get? name = some c ∧ u.get? name = some c ∧
    ∀ callee ∈ c.callees, R callee

/-- The names have entries, which refer to no other names. -/
def Linked (R : String → Prop) (t : Table) : Prop := Agree R t t

variable {R : String → Prop} {t t' u u' : Table}

/-- Tables that agree do so when they have grown. -/
theorem Agree.grows (h : Agree R t u) (ht : t.Grows t') (hu : u.Grows u') : Agree R t' u' := by
  intro name hname
  obtain ⟨c, htc, huc, hc⟩ := h name hname
  exact ⟨c, ht.get? htc, hu.get? huc, hc⟩

theorem Linked.grows (h : Linked R t) (ht : t.Grows t') : Linked R t' := Agree.grows h ht ht

theorem Linked.agree (h : Linked R t) (ht : t.Grows t') : Agree R t t' :=
  Agree.grows h (.refl t) ht

/-- The names that can be reached from a kernel: those that it calls, and in turn those that their
entries refer to. -/
inductive Reaches (t : Table) (k : Kernel) : String → Prop where
  | called {name : String} : name ∈ k.calledEntries → Reaches t k name
  | callee {name callee : String} {c : Callable} :
    Reaches t k name → t.get? name = some c → callee ∈ c.callees → Reaches t k callee

/-- Every name that can be reached from the kernel has an entry. -/
def LinkedFrom (t : Table) (k : Kernel) : Prop := ∀ name, t.Reaches k name → t.contains name = true

theorem LinkedFrom.linked {k : Kernel} (h : t.LinkedFrom k) : Linked (t.Reaches k) t := by
  intro name hname
  have hcontains := h name hname
  rw [contains_eq_isSome, Option.isSome_iff_exists] at hcontains
  obtain ⟨c, hc⟩ := hcontains
  exact ⟨c, hc, hc, fun callee hcallee => hname.callee hc hcallee⟩

end Table

/-- The kernel calls entries of these names only. -/
def Kernel.CallsOnly (R : String → Prop) (k : Kernel) : Prop := ∀ name ∈ k.calledEntries, R name

theorem Kernel.callsOnly_reaches (k : Kernel) (t : Table) : k.CallsOnly (t.Reaches k) :=
  fun _ => .called

namespace Evaluation

/-! ### What is inferred from tables that agree -/

/-- Inference on a kernel that calls such entries only gives the same types from both tables. -/
def SameTypes (R : String → Prop) (infer : Inference) : Prop :=
  ∀ ⦃k t u⦄, k.CallsOnly R → t.isEditing = true → u.isEditing = true → Table.Agree R t u →
    Matches (fun a b => a.1.name = b.1.name ∧ a.1.args = b.1.args) (infer k t) (infer k u)

variable {R : String → Prop} {ctx : Context} {t u : Table}

theorem calledEntries_withType (k : Kernel) (name : String) (type : ElementType) :
    (k.withType name type).calledEntries = k.calledEntries := by
  unfold Kernel.withType Kernel.modifyVariable
  split <;> rfl

theorem calledEntries_receive {inputs : List String} {k k' : Kernel} {slot : Slot}
    {passed : Option ElementType} (h : k.receive inputs slot passed = .ok k') :
    k'.calledEntries = k.calledEntries := by
  have hdeclare (name : String) (type : ElementType) :
      (k.declare name type).calledEntries = k.calledEntries := by
    unfold Kernel.declare
    split
    · split
      · rfl
      · exact calledEntries_withType k name type
    · rfl
  unfold Kernel.receive at h
  split at h
  · rw [← Except.ok.inj h]
  · split at h
    · rw [← Except.ok.inj h]
    · split at h
      · rw [← Except.ok.inj h]
        exact hdeclare _ _
      · cases h
  · split at h
    · rw [← Except.ok.inj h]
      exact hdeclare _ _
    · cases h

/-- What a call site passes leaves the calls of a kernel as they are. -/
theorem calledEntries_receiveAll {k k' : Kernel} {incoming : Incoming}
    (h : k.receiveAll incoming = .ok k') : k'.calledEntries = k.calledEntries := by
  unfold Kernel.receiveAll at h
  generalize incoming.toList = slots at h
  generalize k.inputs.map (·.name) = inputs at h
  induction slots generalizing k with
  | nil =>
    obtain rfl := Except.ok.inj h
    rfl
  | cons slot slots ih =>
    rw [List.foldlM_cons] at h
    obtain ⟨r, hr, h⟩ := bind_eq_ok.1 h
    exact (ih h).trans (calledEntries_receive hr)

/-- A specialization has the same results from both tables. -/
theorem specialize_matches (hinfer : SameTypes R ctx.infer) {c : Callable}
    (hc : ∀ callee ∈ c.callees, R callee) (incoming : Incoming) (ht : t.isEditing = true)
    (hu : u.isEditing = true) (hagree : Table.Agree R t u) :
    Matches (fun a b => a.1.results? = b.1.results?)
      (c.specialize ctx.target ctx.infer ctx.kernel incoming t)
      (c.specialize ctx.target ctx.infer ctx.kernel incoming u) := by
  unfold Callable.specialize
  cases himpl : c.implementation with
  | builtin f => exact .bind_same fun c' _ => .ok rfl
  | matched matcher spelling => exact .bind_same fun c' _ => .ok rfl
  | kernel callee =>
    dsimp only
    unfold Callable.specializeKernel
    refine .bind_same fun callee' hcallee => ?_
    have hcallee := calledEntries_receiveAll (Outcome.lift_eq_ok.1 hcallee)
    have honly : callee'.CallsOnly R := by
      intro name hname
      refine hc name ?_
      rw [hcallee] at hname
      simpa [Callable.callees, Callable.kernel?, himpl] using hname
    dsimp only
    split
    · exact .ok rfl
    · refine (hinfer honly ht hu hagree).bind fun a b hab => ?_
      obtain ⟨a, t'⟩ := a
      obtain ⟨b, u'⟩ := b
      obtain ⟨hname, hargs⟩ := hab
      have hsignature : a.signature = b.signature := by
        simp only [Kernel.signature, Kernel.inputs, Kernel.outputs, Kernel.outputSlot,
          show a.name = b.name from hname, show a.args = b.args from hargs]
      simp only [hsignature]
      exact .bind_same fun signature _ => .ok rfl

/-- A call has the same results from both tables. -/
theorem answer_matches (hinfer : SameTypes R ctx.infer) {callee : Callee}
    (hcallee : ∀ name, callee = .entry name → R name) (args : List Expr)
    (keywords : List (String × Expr)) (types : List (Option ElementType))
    (ht : t.isEditing = true) (hu : u.isEditing = true) (hagree : Table.Agree R t u) :
    Matches (fun a b => a.1.map (·.2) = b.1.map (·.2)) (answer ctx callee args keywords types t)
      (answer ctx callee args keywords types u) := by
  cases callee with
  | bare name => exact .ok rfl
  | entry name =>
    obtain ⟨c, htc, huc, hc⟩ := hagree name (hcallee name rfl)
    simp only [answer, specializeEntry, htc, huc, bind_assoc]
    refine .bind_same fun _ _ => ?_
    refine (specialize_matches hinfer hc _ ht hu hagree).bind fun a b hab => .ok ?_
    cases ha : a.1.results? with
    | none => simp [ha, ← hab]
    | some results => simp [ha, ← hab]

/-! ### States that are alike -/

/-- The states differ only in the names of specializations. -/
structure State.Alike (R : String → Prop) (s s' : State) : Prop where
  agree : Table.Agree R s.table s'.table
  unknown : s.unknown = s'.unknown
  keys (call : Expr) : s.renames.contains call = s'.renames.contains call
  left : s.Sound
  right : s'.Sound

/-- Two evaluations found the same: types, with states that are alike, or the same fault, with the
same names whose types are missing. -/
inductive AlikeAfter (R : String → Prop) {α : Type} :
    Except Halt α × State → Except Halt α × State → Prop where
  | ok {a : α} {m m' : State} : m.Alike R m' → AlikeAfter R (.ok a, m) (.ok a, m')
  | error {e : Halt} {m m' : State} : m.unknown = m'.unknown →
    AlikeAfter R (.error e, m) (.error e, m')

theorem AlikeAfter.fst {α : Type} {x y : Except Halt α × State} (h : AlikeAfter R x y) :
    x.1 = y.1 := by
  cases h <;> rfl

/-- Two evaluations find the same from states that are alike. -/
def SameResults (R : String → Prop) (α : Type) (x y : Eval α) : Prop :=
  ∀ s s', s.Alike R s' → AlikeAfter R (exec x s) (exec y s')

theorem compatible_sameResults : Compatible (SameResults R) where
  pure a s s' h := .ok h
  bind {α β x y f g} h hfg s s' hs := by
    have hxy := h s s' hs
    rw [exec_bind, exec_bind]
    generalize exec x s = r at hxy
    generalize exec y s' = r' at hxy
    cases hxy with
    | ok hm => exact hfg _ _ _ hm
    | error hunknown => exact .error hunknown
  fault cause s s' h := .error h.unknown
  notKnownYet e s s' h := by
    simp only [notKnownYet, exec_bind, exec_get, exec_fault, h.unknown]
    exact .error h.unknown

theorem sameResults_variableType (name : String) :
    SameResults R _ (variableType ctx name) (variableType ctx name) := by
  intro s s' h
  obtain ⟨type?, missing, hexec⟩ := exists_exec_variableType ctx name
  rw [hexec, hexec]
  have hnoted : (s.noteIf missing name).Alike R (s'.noteIf missing name) := by
    cases missing with
    | true =>
      exact ⟨h.agree, by simp [State.noteIf, h.unknown], h.keys,
        ⟨h.left.editing, h.left.proper, h.left.entry⟩,
        ⟨h.right.editing, h.right.proper, h.right.entry⟩⟩
    | false => exact h
  cases type? with
  | ok type => exact .ok hnoted
  | error e => exact .error hnoted.unknown

theorem sameResults_callResults (hgrows : GrowsTable ctx.infer) (hinfer : SameTypes R ctx.infer)
    {callee : Callee} (hcallee : ∀ name, callee = .entry name → R name) (args : List Expr)
    (keywords : List (String × Expr)) (types : List (Option ElementType)) :
    SameResults R _ (callResults ctx callee args keywords types)
      (callResults ctx callee args keywords types) := by
  intro s s' h
  have hs := (evolution_grows hgrows).callResults callee args keywords types (s := s)
  have hs' := (evolution_grows hgrows).callResults callee args keywords types (s := s')
  have hmatches := answer_matches hinfer hcallee args keywords types h.left.editing
    h.right.editing h.agree
  rw [exec_callResults_of_isEditing hgrows _ _ _ _ h.left.editing] at hs ⊢
  rw [exec_callResults_of_isEditing hgrows _ _ _ _ h.right.editing] at hs' ⊢
  generalize answer ctx callee args keywords types s.table = x at hs hmatches ⊢
  generalize answer ctx callee args keywords types s'.table = y at hs' hmatches ⊢
  cases hmatches with
  | error e => exact .error (by simp [h.unknown])
  | @ok a b hab =>
    obtain ⟨a, t⟩ := a
    obtain ⟨b, u⟩ := b
    cases a with
    | none =>
      cases b with
      | none =>
        obtain ⟨ht, hsound⟩ := hs rfl h.left
        obtain ⟨hu, hsound'⟩ := hs' rfl h.right
        exact .ok ⟨h.agree.grows ht hu, h.unknown, h.keys, hsound, hsound'⟩
      | some b => cases hab
    | some a =>
      cases b with
      | none => cases hab
      | some b =>
        obtain ⟨ht, hsound⟩ := hs rfl h.left
        obtain ⟨hu, hsound'⟩ := hs' rfl h.right
        have hab : a.2 = b.2 := Option.some.inj hab
        dsimp only
        rw [hab]
        refine .ok ⟨h.agree.grows ht hu, h.unknown, fun call => ?_, hsound, hsound'⟩
        rw [Renames.contains_insert, Renames.contains_insert, h.keys]

/-! ### Expressions -/

/-- The expression calls entries of these names only. -/
def CallsOnly (R : String → Prop) (e : Expr) : Prop :=
  ∀ name, e.Mentions (.entry name) → R name

variable (hgrows : GrowsTable ctx.infer) (hinfer : SameTypes R ctx.infer)

include hgrows hinfer

theorem sameResults_eval {e : Expr} (he : CallsOnly R e) :
    SameResults R _ (eval ctx e) (eval ctx e) := by
  refine compatible_sameResults.eval rfl e (fun name _ => sameResults_variableType name) ?_
  intro callee args keywords types hvisits
  refine sameResults_callResults hgrows hinfer ?_ args keywords types
  rintro name rfl
  exact he name (hvisits.mentions (Expr.mentions_call _ _ _))

theorem sameResults_evalTuple {e : Expr} (he : CallsOnly R e) :
    SameResults R _ (evalTuple ctx e) (evalTuple ctx e) := by
  refine compatible_sameResults.evalTuple rfl e (fun name _ => sameResults_variableType name) ?_
  intro callee args keywords types hvisits
  refine sameResults_callResults hgrows hinfer ?_ args keywords types
  rintro name rfl
  exact he name (hvisits.mentions (Expr.mentions_call _ _ _))

end Evaluation

end KernelTyping
