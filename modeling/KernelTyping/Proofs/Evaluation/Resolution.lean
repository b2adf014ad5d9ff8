import KernelTyping.Proofs.Evaluation.Operands
import KernelTyping.Proofs.Outcome
import KernelTyping.Proofs.Table.Growth

/-!
# KernelTyping.Proofs.Evaluation.Resolution — what a call resolves to

`resolution` is the part of the evaluation of a call that concerns the table alone: what the call
resolves to for given types of its arguments, and the table after it.  `exec_callResults` says how
an evaluation records it.

A resolution is an answer, the callable that the call has for these types (`answer`), and the name
under which that callable is put into the table (`resolution_eq`).
-/

namespace KernelTyping.Evaluation

variable (ctx : Context)

/-- The results of a call and the name of the entry that it resolved to. -/
abbrev Resolved := List ElementType × String

/-- The callable that an entry becomes for the passed types, with the table after inference on the
kernels that are called. -/
def specializeEntry (name : String) (incoming : Incoming) (table : Table) :
    Outcome (Callable × Table) := do
  match table.get? name with
  | none => throw (.fault (.noEntry name))
  | some callable =>
    checkOverwrite callable.signature incoming
    callable.specialize ctx.target ctx.infer ctx.kernel incoming table

/-- A call of an entry resolves once the entry has results. -/
def resolutionOfEntry (name : String) (incoming : Incoming) (table : Table) :
    Outcome (Option Resolved × Table) := do
  let (callable, table) ← specializeEntry ctx name incoming table
  match callable.results? with
  | none => return (none, table)
  | some results =>
    let (table, stored) ← table.storeSpecialization name callable
    return (some (results, stored), table)

/-- The function of the target that a call of a bare name matches, once all its positional
arguments are known. -/
def matched? (name : String) (args : List (Option ElementType)) : Option (String × Overload) :=
  (args.mapM id).bind (ctx.kernel.overload? ctx.target name)

/-- A call of a bare name resolves if the target matches it. -/
def resolutionOfBare (name : String) (args : List (Option ElementType)) (table : Table) :
    Outcome (Option Resolved × Table) := do
  match matched? ctx name args with
  | none => return (none, table)
  | some (matcher, overload) =>
    let (table, stored) ← table.store name (.ofOverload name matcher overload)
    return (some (overload.results, stored), table)

/-- What a call resolves to for these types of its arguments, keywords last. -/
def resolution (callee : Callee) (args : List Expr) (keywords : List (String × Expr))
    (types : List (Option ElementType)) (table : Table) : Outcome (Option Resolved × Table) :=
  let positional := types.take args.length
  match callee with
  | .entry name => resolutionOfEntry ctx name
      (.ofArguments positional ((keywords.map (·.1)).zip (types.drop args.length))) table
  | .bare name => resolutionOfBare ctx name positional table

/-- The state with the resolution of a call. -/
def State.resolve (s : State) (call : Expr) (resolved : Option Resolved) (table : Table) : State :=
  { s with
    table := table
    renames := match resolved with
      | none => s.renames
      | some (_, name) => s.renames.insert call name }

/-- Resolving the call takes the table out of the state: there is such a callee, and the call site
passes no other types than the recorded ones. -/
def handsOn (callee : Callee) (args : List Expr) (keywords : List (String × Expr))
    (types : List (Option ElementType)) (table : Table) : Bool :=
  match callee with
  | .entry name => (table.get? name).any fun callable =>
      (checkOverwrite callable.signature (.ofArguments (types.take args.length)
        ((keywords.map (·.1)).zip (types.drop args.length)))).isOk
  | .bare _ => true

/-- The state after a fault: without a table if that was handed on. -/
def State.failed (s : State) (handedOn : Bool) : State :=
  if handedOn then { s with table := .empty } else s

@[simp] theorem State.unknown_failed (s : State) (handedOn : Bool) :
    (s.failed handedOn).unknown = s.unknown := by
  cases handedOn <;> rfl

@[simp] theorem State.renames_failed (s : State) (handedOn : Bool) :
    (s.failed handedOn).renames = s.renames := by
  cases handedOn <;> rfl

variable {ctx}

theorem exec_takeTable (s : State) :
    exec takeTable s = (.ok s.table, { s with table := .empty }) := rfl

theorem exec_resolveEntry (call : Expr) (name : String) (incoming : Incoming) (s : State) :
    exec (resolveEntry ctx call name incoming) s =
      match resolutionOfEntry ctx name incoming s.table with
      | .ok (resolved, table) => (.ok (resolved.map (·.1)), s.resolve call resolved table)
      | .error h => (.error h, s.failed ((s.table.get? name).any fun callable =>
          (checkOverwrite callable.signature incoming).isOk)) := by
  unfold resolveEntry resolutionOfEntry specializeEntry
  simp only [exec_bind, exec_get]
  cases s.table.get? name with
  | none => rfl
  | some callable =>
    simp only [exec_bind, Option.any_some]
    cases checkOverwrite callable.signature incoming with
    | error f => rfl
    | ok _ =>
      simp only [exec_outcome, exec_takeTable, Evaluation.lift_ok, exec_pure, Outcome.lift_ok,
        ok_bind]
      cases callable.specialize ctx.target ctx.infer ctx.kernel incoming s.table with
      | error h => rfl
      | ok specialized =>
        obtain ⟨specialized, table⟩ := specialized
        simp only [ok_bind]
        cases specialized.results? with
        | none => rfl
        | some results =>
          cases table.storeSpecialization name specialized <;> rfl

theorem exec_resolveBare (call : Expr) (name : String) (args : List (Option ElementType))
    (s : State) :
    exec (resolveBare ctx call name args) s =
      match resolutionOfBare ctx name args s.table with
      | .ok (resolved, table) => (.ok (resolved.map (·.1)), s.resolve call resolved table)
      | .error h => (.error h, s.failed true) := by
  unfold resolveBare resolutionOfBare matched?
  cases args.mapM id with
  | none => rfl
  | some types =>
    simp only [Option.bind_some]
    cases ctx.kernel.overload? ctx.target name types with
    | none => rfl
    | some found =>
      obtain ⟨matcher, overload⟩ := found
      simp only [exec_bind, exec_takeTable]
      cases s.table.store name (.ofOverload name matcher overload) <;> rfl

/-- A call records what it resolves to.  If its resolution fails, nothing is recorded. -/
theorem exec_callResults (callee : Callee) (args : List Expr) (keywords : List (String × Expr))
    (types : List (Option ElementType)) (s : State) :
    exec (callResults ctx callee args keywords types) s =
      match resolution ctx callee args keywords types s.table with
      | .ok (resolved, table) =>
        (.ok (resolved.map (·.1)), s.resolve (.call callee args keywords) resolved table)
      | .error h => (.error h, s.failed (handsOn callee args keywords types s.table)) := by
  cases callee with
  | entry name => exact exec_resolveEntry _ name _ s
  | bare name => exact exec_resolveBare _ name _ s

/-! ### Answers -/

variable (ctx) in
/-- The callable that a call has for these types of its arguments, with its results, once it has
any; and the table after inference on the kernels that are called. -/
def answer (callee : Callee) (args : List Expr) (keywords : List (String × Expr))
    (types : List (Option ElementType)) (table : Table) :
    Outcome (Option (Callable × List ElementType) × Table) :=
  let positional := types.take args.length
  match callee with
  | .entry name => do
    let (callable, table) ← specializeEntry ctx name
      (.ofArguments positional ((keywords.map (·.1)).zip (types.drop args.length))) table
    return (callable.results?.map (callable, ·), table)
  | .bare name =>
    return ((matched? ctx name positional).map fun (matcher, overload) =>
      (.ofOverload name matcher overload, overload.results), table)

/-- The table with the callable of an answer, and the resolution of the call. -/
def putAnswer : Option (Callable × List ElementType) × Table → Option Resolved × Table
  | (none, table) => (none, table)
  | (some (callable, results), table) =>
    (some (results, (table.put callable.name callable).2), (table.put callable.name callable).1)

/-- Inference only adds specializations to the table. -/
def GrowsTable (infer : Inference) : Prop :=
  ∀ ⦃k table k' table'⦄, infer k table = .ok (k', table') → table.Grows table'

/-- A specialization leaves the table as it is and has no kernel but its own, or it has the kernel
that inference gives for what the call site passes. -/
theorem specialize_cases {target : Target} {infer : Inference} {caller : Kernel} {c c' : Callable}
    {incoming : Incoming} {t u : Table}
    (h : c.specialize target infer caller incoming t = .ok (c', u)) :
    (u = t ∧ (c' = c ∨ c'.kernel? = none)) ∨
      ∃ k passed typed, c.kernel? = some k ∧ k.receiveAll incoming = .ok passed ∧
        infer passed t = .ok (typed, u) ∧ c'.kernel? = some typed := by
  unfold Callable.specialize at h
  cases himpl : c.implementation with
  | builtin f =>
    simp only [himpl] at h
    obtain ⟨found, hfound, h⟩ := bind_eq_ok.1 h
    obtain ⟨rfl, rfl⟩ := Prod.mk.inj (Except.ok.inj h)
    obtain ⟨types, -, hfound⟩ := bind_eq_ok.1 (Outcome.lift_eq_ok.1 hfound)
    obtain ⟨signature?, -, hfound⟩ := bind_eq_ok.1 hfound
    cases signature? with
    | none => exact .inl ⟨rfl, .inl (Except.ok.inj hfound).symm⟩
    | some signature =>
      obtain rfl := Except.ok.inj hfound
      exact .inl ⟨rfl, .inr (by simp [Callable.kernel?, himpl])⟩
  | matched matcher spelling =>
    simp only [himpl] at h
    obtain ⟨found, hfound, h⟩ := bind_eq_ok.1 h
    obtain ⟨rfl, rfl⟩ := Prod.mk.inj (Except.ok.inj h)
    obtain ⟨types, -, hfound⟩ := bind_eq_ok.1 (Outcome.lift_eq_ok.1 hfound)
    split at hfound
    · exact .inl ⟨rfl, .inl (Except.ok.inj hfound).symm⟩
    · split at hfound
      · obtain rfl := Except.ok.inj hfound
        exact .inl ⟨rfl, .inr rfl⟩
      · cases hfound
  | kernel callee =>
    simp only [himpl, Callable.specializeKernel] at h
    obtain ⟨passed, hpassed, h⟩ := bind_eq_ok.1 h
    split at h
    · obtain ⟨rfl, rfl⟩ := Prod.mk.inj (Except.ok.inj h)
      exact .inl ⟨rfl, .inl rfl⟩
    · obtain ⟨⟨typed, table⟩, hinferred, h⟩ := bind_eq_ok.1 h
      obtain ⟨signature, -, h⟩ := bind_eq_ok.1 h
      obtain ⟨rfl, rfl⟩ := Prod.mk.inj (Except.ok.inj h)
      exact .inr ⟨callee, passed, typed, by simp [Callable.kernel?, himpl],
        Outcome.lift_eq_ok.1 hpassed, hinferred, rfl⟩

section Relation

variable {R : Table → Table → Prop} (hrefl : ∀ t, R t t)

include hrefl

/-- A specialization changes the table only by inference on the kernel that is specialized. -/
theorem specialize_relates {target : Target} {infer : Inference}
    (hinfer : ∀ ⦃k t k' t'⦄, infer k t = .ok (k', t') → R t t') {caller : Kernel} {c c' : Callable}
    {incoming : Incoming} {t t' : Table}
    (h : c.specialize target infer caller incoming t = .ok (c', t')) : R t t' := by
  rcases specialize_cases h with ⟨rfl, -⟩ | ⟨_, _, _, -, -, hinferred, -⟩
  · exact hrefl _
  · exact hinfer hinferred

variable (hinfer : ∀ ⦃k t k' t'⦄, ctx.infer k t = .ok (k', t') → R t t') {t u : Table}

include hinfer

theorem specializeEntry_relates {name : String} {incoming : Incoming} {c : Callable}
    (h : specializeEntry ctx name incoming t = .ok (c, u)) : R t u := by
  unfold specializeEntry at h
  cases hname : t.get? name with
  | none =>
    rw [hname] at h
    cases h
  | some callable =>
    rw [hname] at h
    obtain ⟨_, -, h⟩ := bind_eq_ok.1 h
    exact specialize_relates hrefl hinfer h

/-- To find the answer of a call changes the table only by inference on the kernel called. -/
theorem answer_relates {callee : Callee} {args : List Expr} {keywords : List (String × Expr)}
    {types : List (Option ElementType)} {a : Option (Callable × List ElementType)}
    (h : answer ctx callee args keywords types t = .ok (a, u)) : R t u := by
  unfold answer at h
  cases callee with
  | entry name =>
    obtain ⟨⟨c, v⟩, hspec, h⟩ := bind_eq_ok.1 h
    obtain ⟨-, rfl⟩ := Prod.mk.inj (Except.ok.inj h)
    exact specializeEntry_relates hrefl hinfer hspec
  | bare name =>
    obtain ⟨-, rfl⟩ := Prod.mk.inj (Except.ok.inj h)
    exact hrefl t

end Relation

variable {callee : Callee} {args : List Expr} {keywords : List (String × Expr)}
  {types : List (Option ElementType)} {t u : Table}

/-- An entry that is specialized is in the table. -/
theorem contains_of_specializeEntry {name : String} {incoming : Incoming} {c : Callable}
    (h : specializeEntry ctx name incoming t = .ok (c, u)) : t.contains name = true := by
  rw [Table.contains_eq_isSome]
  unfold specializeEntry at h
  cases hname : t.get? name with
  | none =>
    rw [hname] at h
    cases h
  | some _ => rfl

/-- A call of an entry has an answer only from a table with the entry. -/
theorem contains_of_answer {name : String} {a : Option (Callable × List ElementType)}
    (h : answer ctx (.entry name) args keywords types t = .ok (a, u)) :
    t.contains name = true := by
  obtain ⟨⟨c, v⟩, hspecialized, -⟩ := bind_eq_ok.1 h
  exact contains_of_specializeEntry hspecialized

theorem specializeEntry_grows (hinfer : GrowsTable ctx.infer) {name : String} {incoming : Incoming}
    {c : Callable} (h : specializeEntry ctx name incoming t = .ok (c, u)) : t.Grows u :=
  specializeEntry_relates .refl hinfer h

theorem answer_grows (hinfer : GrowsTable ctx.infer) {a : Option (Callable × List ElementType)}
    (h : answer ctx callee args keywords types t = .ok (a, u)) : t.Grows u :=
  answer_relates .refl hinfer h

/-- Inside a transaction, a call resolves to its answer, put into the table. -/
theorem resolution_eq (hinfer : GrowsTable ctx.infer) (hedit : t.isEditing = true) :
    resolution ctx callee args keywords types t =
      (answer ctx callee args keywords types t).map putAnswer := by
  unfold resolution answer
  cases callee with
  | entry name =>
    simp only [resolutionOfEntry]
    cases hspec : specializeEntry ctx name (.ofArguments (types.take args.length)
        ((keywords.map (·.1)).zip (types.drop args.length))) t with
    | error h => rfl
    | ok specialized =>
      obtain ⟨c, v⟩ := specialized
      have hgrows := specializeEntry_grows hinfer hspec
      simp only [ok_bind]
      cases c.results? with
      | none => rfl
      | some results =>
        have hcontains := hgrows.contains (contains_of_specializeEntry hspec)
        have hedit' : v.isEditing = true := hgrows.isEditing_eq.trans hedit
        simp [Table.storeSpecialization, hcontains, Table.store_of_isEditing hedit']
        rfl
  | bare name =>
    simp only [resolutionOfBare]
    cases matched? ctx name (types.take args.length) with
    | none => rfl
    | some found =>
      simp [Table.store_of_isEditing hedit, Callable.ofOverload]
      rfl

/-- Inside a transaction, a call with an answer puts the callable into the table and records its
name. -/
theorem exec_callResults_of_isEditing (hinfer : GrowsTable ctx.infer) (callee : Callee)
    (args : List Expr) (keywords : List (String × Expr)) (types : List (Option ElementType))
    {s : State} (hedit : s.table.isEditing = true) :
    exec (callResults ctx callee args keywords types) s =
      match answer ctx callee args keywords types s.table with
      | .ok (none, t) => (.ok none, { s with table := t })
      | .ok (some (c, results), t) =>
        (.ok (some results),
          { s with
            table := (t.put c.name c).1
            renames := s.renames.insert (.call callee args keywords) (t.put c.name c).2 })
      | .error h => (.error h, s.failed (handsOn callee args keywords types s.table)) := by
  rw [exec_callResults, resolution_eq hinfer hedit]
  match answer ctx callee args keywords types s.table with
  | .ok (none, _) | .ok (some _, _) | .error _ => rfl

/-- What a call that succeeds inside a transaction has done: without an answer it leaves the table
that the search for one left, otherwise it has put the callable and recorded its name. -/
theorem callResults_cases (hinfer : GrowsTable ctx.infer) {s s' : State}
    {results : Option (List ElementType)} (hedit : s.table.isEditing = true)
    (h : exec (callResults ctx callee args keywords types) s = (.ok results, s')) :
    (∃ t, answer ctx callee args keywords types s.table = .ok (none, t) ∧ results = none ∧
      s' = { s with table := t }) ∨
    ∃ c found t, answer ctx callee args keywords types s.table = .ok (some (c, found), t) ∧
      results = some found ∧
      s' = { s with
        table := (t.put c.name c).1
        renames := s.renames.insert (.call callee args keywords) (t.put c.name c).2 } := by
  rw [exec_callResults_of_isEditing hinfer callee args keywords types hedit] at h
  cases hanswer : answer ctx callee args keywords types s.table with
  | error e =>
    rw [hanswer] at h
    cases h
  | ok found =>
    obtain ⟨a, t⟩ := found
    rw [hanswer] at h
    cases a with
    | none =>
      obtain ⟨hresults, rfl⟩ := Prod.mk.inj h
      exact .inl ⟨t, rfl, (Except.ok.inj hresults).symm, rfl⟩
    | some a =>
      obtain ⟨hresults, rfl⟩ := Prod.mk.inj h
      exact .inr ⟨a.1, a.2, t, rfl, (Except.ok.inj hresults).symm, rfl⟩

end KernelTyping.Evaluation
