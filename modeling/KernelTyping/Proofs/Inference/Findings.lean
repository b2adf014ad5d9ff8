import KernelTyping.Proofs.Evaluation.Trace
import KernelTyping.Proofs.Inference.LastingFaults
import KernelTyping.Proofs.Inference.Soundness
import KernelTyping.Proofs.Signature
import KernelTyping.Proofs.Table.Sessions

/-!
# KernelTyping.Proofs.Inference.Findings — what an evaluation hands back

While a call is being resolved, the state is without its table.  What goes wrong there lasts
(`lasting_resolution`), so the table is back whenever an evaluation succeeds or meets a temporary
fault.

* `Passes ctx es s d m`: evaluating `es` one after the other from `s` comes to `d`, in state `m`.
* `Gives ctx call m results name`: from `m` the call has these results, and that name is recorded.
* `Findings`: the table grows, what is newly recorded was recorded on the way, and every call on the
  way has left an entry with the results that it gave.  This holds of an operand after the other,
  and so of the expression (`findings_eval`, `findings_evalTuple`).
* `evaluation_kept`: so the caller gets its own table back, with what was found added to it.
-/

namespace KernelTyping

/-! ### Recorded results -/

/-- The entry of that name has a recorded signature with these results. -/
def Table.HasResults (t : Table) (name : String) (results : List ElementType) : Prop :=
  ∃ c signature, t.get? name = some c ∧ c.signature = some signature ∧ signature.results = results

theorem Table.HasResults.grows {t u : Table} {name : String} {results : List ElementType}
    (h : t.HasResults name results) (hgrows : t.Grows u) : u.HasResults name results := by
  obtain ⟨c, signature, hc, hsignature, hresults⟩ := h
  exact ⟨c, signature, hgrows.get? hc, hsignature, hresults⟩

theorem Callable.exists_signature_of_results? {c : Callable} {results : List ElementType}
    (h : c.results? = some results) :
    ∃ signature, c.signature = some signature ∧ signature.results = results := by
  unfold results? at h
  cases hsignature : c.signature with
  | none =>
    rw [hsignature] at h
    cases h
  | some signature =>
    rw [hsignature, Option.map_some] at h
    refine ⟨signature, rfl, ?_⟩
    split at h
    · cases h
    · cases h
    case h_3 type types heq => exact (Option.some.inj heq).trans (Option.some.inj h)

/-! ### The table is handed on -/

theorem FailsOnly.forM {ε α : Type} {P : ε → Prop} {f : α → Except ε PUnit} {xs : List α}
    (hf : ∀ x ∈ xs, FailsOnly P (f x)) : FailsOnly P (xs.forM f) := by
  induction xs with
  | nil => exact .ok _
  | cons x xs ih =>
    exact (hf x (by simp)).bind fun _ => ih fun y hy => hf y (by simp [hy])

theorem lasting_checkOverwrite (recorded : Option Signature) (incoming : Incoming) :
    FailsOnly Fault.Lasts (checkOverwrite recorded incoming) := by
  unfold checkOverwrite
  split
  · exact .ok _
  · refine FailsOnly.forM fun ⟨slot, passed⟩ _ => ?_
    dsimp only [Signature.checkSlot]
    split
    · split
      · exact .ok _
      · exact .error rfl
    · exact .ok _

namespace Table

variable (t : Table) (c : Callable)

theorem lasting_store (base : String) : FailsOnly Fault.Lasts (t.store base c) := by
  unfold store
  split
  · split <;> exact .ok _
  · exact .error rfl

theorem lasting_storeSpecialization (function : String) :
    FailsOnly Fault.Lasts (t.storeSpecialization function c) := by
  unfold storeSpecialization
  split
  · exact t.lasting_store c _
  · exact .error rfl

end Table

namespace Evaluation

variable {ctx : Context}

/-- What goes wrong while the table is handed on lasts. -/
theorem lasting_resolution (hinfer : ∀ k t, FailsOnly Halt.Lasts (ctx.infer k t)) (callee : Callee)
    (args : List Expr) (keywords : List (String × Expr)) (types : List (Option ElementType))
    (t : Table) : FailsOnly Halt.Lasts (resolution ctx callee args keywords types t) := by
  unfold resolution
  cases callee with
  | entry name =>
    refine FailsOnly.bind ?_ fun ⟨c, u⟩ => ?_
    · unfold specializeEntry
      split
      · exact .error rfl
      · exact (lasting_checkOverwrite _ _).lift.bind fun _ => Callable.lasting_specialize _ _ hinfer _ _
    · dsimp only
      split
      · exact .ok _
      · exact (u.lasting_storeSpecialization c name).lift.bind fun _ => .ok _
  | bare name =>
    dsimp only [resolutionOfBare]
    split
    · exact .ok _
    · exact (t.lasting_store _ name).lift.bind fun _ => .ok _

/-- What a call resolves to has the results of the call. -/
theorem hasResults_of_resolution {callee : Callee} {args : List Expr}
    {keywords : List (String × Expr)} {types : List (Option ElementType)} {t u : Table}
    {results : List ElementType} {name : String}
    (h : resolution ctx callee args keywords types t = .ok (some (results, name), u)) :
    u.HasResults name results := by
  have hstored {t u : Table} {base name : String} {c : Callable}
      (h : t.store base c = .ok (u, name)) : u.get? name = some c :=
    (Table.nameOf?_spec (Table.Grows.nameOf?_of_store h (.refl u))).1
  cases callee with
  | entry function =>
    obtain ⟨⟨c, v⟩, -, h⟩ := bind_eq_ok.1 h
    dsimp only at h
    split at h
    · cases (Prod.mk.inj (Except.ok.inj h)).1
    case h_2 found hfound =>
      obtain ⟨⟨w, stored⟩, hstore, h⟩ := bind_eq_ok.1 h
      obtain ⟨hresolved, rfl⟩ := Prod.mk.inj (Except.ok.inj h)
      obtain ⟨rfl, rfl⟩ := Prod.mk.inj (Option.some.inj hresolved)
      obtain ⟨signature, hsignature, hresults⟩ := Callable.exists_signature_of_results? hfound
      have hstore := Table.store_of_storeSpecialization (Outcome.lift_eq_ok.1 hstore)
      exact ⟨c, signature, hstored hstore, hsignature, hresults⟩
  | bare function =>
    dsimp only [resolution, resolutionOfBare] at h
    split at h
    · cases (Prod.mk.inj (Except.ok.inj h)).1
    case h_2 matcher overload _ =>
      obtain ⟨⟨w, stored⟩, hstore, h⟩ := bind_eq_ok.1 h
      obtain ⟨hresolved, rfl⟩ := Prod.mk.inj (Except.ok.inj h)
      obtain ⟨rfl, rfl⟩ := Prod.mk.inj (Option.some.inj hresolved)
      have hstore := Outcome.lift_eq_ok.1 hstore
      exact ⟨_, _, hstored hstore, rfl, Signature.results_ofLists _ _⟩

/-! ### Ends of an evaluation -/

/-- The evaluation succeeded, or met a temporary fault. -/
inductive Recoverable {α : Type} : Except Halt α → Prop where
  | ok (a : α) : Recoverable (.ok a)
  | temporary {f : Fault} (h : f.isTemporary = true) : Recoverable (.error (.fault f))

theorem Recoverable.not_lasts {α : Type} {h : Halt} (hr : Recoverable (.error h : Except Halt α)) :
    ¬h.Lasts := by
  cases hr with
  | temporary htemporary => exact fun hlasts => nomatch htemporary.symm.trans hlasts

theorem Recoverable.error {α β : Type} {h : Halt} (hr : Recoverable (.error h : Except Halt α)) :
    Recoverable (.error h : Except Halt β) := by
  cases hr with
  | temporary htemporary => exact .temporary htemporary

/-- What is done with a result in the end does not count. -/
theorem Recoverable.of_bind_pure {α β : Type} {x : Eval α} {f : α → β} {r : Except Halt β}
    {s s' : State} (h : exec (x >>= fun a => pure (f a)) s = (r, s')) (hr : Recoverable r) :
    ∃ r', exec x s = (r', s') ∧ Recoverable r' := by
  rw [exec_bind] at h
  match hx : exec x s with
  | (.ok a, m) =>
    rw [hx] at h
    obtain ⟨-, rfl⟩ := Prod.mk.inj h
    exact ⟨.ok a, rfl, .ok a⟩
  | (.error halt, m) =>
    rw [hx] at h
    obtain ⟨rfl, rfl⟩ := Prod.mk.inj h
    exact ⟨.error halt, rfl, hr.error⟩

/-! ### What an evaluation passes -/

/-- Evaluating expressions one after the other comes to another one, in the second state. -/
inductive Passes (ctx : Context) : List Expr → State → Expr → State → Prop where
  | here {e : Expr} {es : List Expr} {s : State} : Passes ctx (e :: es) s e s
  | operand {e d : Expr} {es : List Expr} {s m : State} :
    Passes ctx (operands e) s d m → Passes ctx (e :: es) s d m
  | next {e d : Expr} {es : List Expr} {s r m : State} {type : Option ElementType} :
    exec (eval ctx e) s = (.ok type, r) → Passes ctx es r d m → Passes ctx (e :: es) s d m

/-- The same for an expression with several results. -/
inductive PassesTuple (ctx : Context) (e : Expr) (s : State) : Expr → State → Prop where
  | operand {d : Expr} {m : State} : Passes ctx (tupleOperands e) s d m → PassesTuple ctx e s d m
  | call {d : Expr} : tupleCall? e = some d → PassesTuple ctx e s d s

/-- From this state the call has these results, and the name is recorded for it. -/
def Gives (ctx : Context) (call : Expr) (m : State) (results : List ElementType) (name : String) :
    Prop :=
  ∃ callee args keywords m', call = .call callee args keywords ∧
    exec (evalCall ctx callee args keywords) m = (.ok (some results), m') ∧
    m'.renames.get? call = some name

variable {P Q : Expr → State → Prop} {e : Expr} {es : List Expr} {s m s' : State}

theorem passes_single_iff {d : Expr} :
    Passes ctx [e] s d m ↔ Passes ctx (operands e) s d m ∨ d = e ∧ m = s := by
  constructor
  · intro h
    cases h with
    | here => exact .inr ⟨rfl, rfl⟩
    | operand h => exact .inl h
    | next _ h => cases h
  · rintro (h | ⟨rfl, rfl⟩)
    · exact .operand h
    · exact .here

theorem passes_cons_of_ok {d : Expr} {type : Option ElementType} {r : State}
    (h : exec (eval ctx e) s = (.ok type, r)) :
    Passes ctx (e :: es) s d m ↔ Passes ctx [e] s d m ∨ Passes ctx es r d m := by
  rw [passes_single_iff]
  constructor
  · intro hd
    cases hd with
    | here => exact .inl (.inr ⟨rfl, rfl⟩)
    | operand hd => exact .inl (.inl hd)
    | next h' hd =>
      obtain ⟨-, rfl⟩ := Prod.mk.inj (h'.symm.trans h)
      exact .inr hd
  · rintro ((hd | ⟨rfl, rfl⟩) | hd)
    · exact .operand hd
    · exact .here
    · exact .next h hd

theorem passes_cons_of_error {d : Expr} {halt : Halt} {r : State}
    (h : exec (eval ctx e) s = (.error halt, r)) :
    Passes ctx (e :: es) s d m ↔ Passes ctx [e] s d m := by
  rw [passes_single_iff]
  constructor
  · intro hd
    cases hd with
    | here => exact .inr ⟨rfl, rfl⟩
    | operand hd => exact .inl hd
    | next h' hd => cases h.symm.trans h'
  · rintro (hd | ⟨rfl, rfl⟩)
    · exact .operand hd
    · exact .here

theorem passesTuple_iff {d : Expr} :
    PassesTuple ctx e s d m ↔
      Passes ctx (tupleOperands e) s d m ∨ tupleCall? e = some d ∧ m = s := by
  constructor
  · intro h
    cases h with
    | operand h => exact .inl h
    | call h => exact .inr ⟨h, rfl⟩
  · rintro (h | ⟨h, rfl⟩)
    · exact .operand h
    · exact .call h

/-! ### What an evaluation leaves behind -/

/-- What an evaluation that passes these calls has left behind. -/
structure Findings (ctx : Context) (P : Expr → State → Prop) (s s' : State) : Prop where
  grows : s.table.Grows s'.table
  sound : s'.Sound
  recorded {call : Expr} {name : String} : s'.renames.get? call = some name →
    s.renames.get? call = some name ∨ ∃ m results, P call m ∧ Gives ctx call m results name
  given {call : Expr} {m : State} {results : List ElementType} {name : String} :
    P call m → Gives ctx call m results name → s'.table.HasResults name results

namespace Findings

theorem congr (h : Findings ctx P s s') (hPQ : ∀ d m, Q d m ↔ P d m) : Findings ctx Q s s' := by
  obtain rfl : Q = P := by
    funext d m
    exact propext (hPQ d m)
  exact h

theorem trans (h : Findings ctx P s m) (h' : Findings ctx Q m s') :
    Findings ctx (fun d r => P d r ∨ Q d r) s s' where
  grows := h.grows.trans h'.grows
  sound := h'.sound
  recorded hname := by
    rcases h'.recorded hname with hname | ⟨r, results, hQ, hgives⟩
    · refine (h.recorded hname).imp_right ?_
      rintro ⟨r, results, hP, hgives⟩
      exact ⟨r, results, .inl hP, hgives⟩
    · exact .inr ⟨r, results, .inr hQ, hgives⟩
  given := by
    rintro call r results name (hP | hQ) hgives
    · exact (h.given hP hgives).grows h'.grows
    · exact h'.given hQ hgives

theorem refl (hs : s.Sound) : Findings ctx (fun _ _ => False) s s where
  grows := .refl _
  sound := hs
  recorded := .inl
  given := False.elim

/-- Nothing is left behind by steps without a call, which come after the others. -/
theorem bind_quiet {α β : Type} {x : Eval α} {f : α → Eval β} {start : State} {r : Except Halt β}
    (hx : ∀ {a : Except Halt α} {m : State}, exec x start = (a, m) → Recoverable a →
      Findings ctx P s m)
    (hf : ∀ a, Quiet _ (f a) (f a)) (h : exec (x >>= f) start = (r, s')) (hr : Recoverable r) :
    Findings ctx P s s' := by
  rw [exec_bind] at h
  match ha : exec x start with
  | (.error halt, m) =>
    rw [ha] at h
    obtain ⟨rfl, rfl⟩ := Prod.mk.inj h
    exact hx ha hr.error
  | (.ok a, m) =>
    rw [ha] at h
    have hm := hx ha (.ok a)
    obtain ⟨-, htable, hrenames⟩ := (hf a).2 m
    rw [show exec (f a) m = (r, s') from h] at htable hrenames
    dsimp only at htable hrenames
    have hsound : s'.Sound := ⟨htable ▸ hm.sound.editing, hrenames ▸ hm.sound.proper, by
      rw [htable, hrenames]
      exact hm.sound.entry⟩
    exact ⟨htable ▸ hm.grows, hsound, fun hname => hm.recorded (hrenames ▸ hname),
      fun hd hgives => htable ▸ hm.given hd hgives⟩

/-- An expression that gives nothing as a call is passed as well. -/
theorem withSelf (h : Findings ctx (Passes ctx (operands e) s) s s')
    (hself : ∀ results name, ¬Gives ctx e s results name) : Findings ctx (Passes ctx [e] s) s s' where
  grows := h.grows
  sound := h.sound
  recorded hname := by
    refine (h.recorded hname).imp_right ?_
    rintro ⟨r, results, hP, hgives⟩
    exact ⟨r, results, passes_single_iff.2 (.inl hP), hgives⟩
  given hd hgives := by
    rcases passes_single_iff.1 hd with hd | ⟨rfl, rfl⟩
    · exact h.given hd hgives
    · exact absurd hgives (hself _ _)

/-- A call that resolves to an entry is passed after its arguments, and recorded with the results
that it gives. -/
theorem withCall {callee : Callee} {args : List Expr} {keywords : List (String × Expr)}
    {results : List ElementType} {name : String} {t : Table}
    (h : Findings ctx (Passes ctx (Expr.call callee args keywords).children s) s m)
    (ht : m.table.Grows t) (hresults : t.HasResults name results)
    (hsound : (m.resolve (.call callee args keywords) (some (results, name)) t).Sound)
    (hexec : exec (evalCall ctx callee args keywords) s =
      (.ok (some results), m.resolve (.call callee args keywords) (some (results, name)) t)) :
    Findings ctx (Passes ctx [.call callee args keywords] s) s
      (m.resolve (.call callee args keywords) (some (results, name)) t) where
  grows := h.grows.trans ht
  sound := hsound
  recorded {call other} hother := by
    rw [State.resolve, Renames.get?_insert] at hother
    split at hother
    case isTrue heq =>
      obtain rfl := Option.some.inj hother
      obtain rfl := heq
      exact .inr ⟨s, results, .here, callee, args, keywords, _, rfl, hexec,
        by simp [State.resolve, Renames.get?_insert]⟩
    case isFalse =>
      refine (h.recorded hother).imp_right ?_
      rintro ⟨r, given, hd, hgives⟩
      exact ⟨r, given, .operand hd, hgives⟩
  given {call r given other} hd hgives := by
    rcases passes_single_iff.1 hd with hd | ⟨rfl, rfl⟩
    · exact (h.given hd hgives).grows ht
    · -- evaluating the call once more from there gives the same
      obtain ⟨callee', args', keywords', r, heq, hexec', hother⟩ := hgives
      cases heq
      obtain ⟨hsame, rfl⟩ := Prod.mk.inj (hexec.symm.trans hexec')
      obtain rfl : results = given := by simpa using hsame
      obtain rfl : name = other := by simpa [State.resolve, Renames.get?_insert] using hother
      exact hresults

end Findings

section Lasting

variable (hgrows : GrowsTable ctx.infer) (hinfer : ∀ k t, FailsOnly Halt.Lasts (ctx.infer k t))

include hgrows hinfer

/-- A call is recorded with the results it gives, or it gives none and is not recorded. -/
theorem findings_evalCall {callee : Callee} {args : List Expr} {keywords : List (String × Expr)}
    {results : Except Halt (Option (List ElementType))}
    (hargs : ∀ {types : Except Halt (List (Option ElementType))} {m : State},
      exec ((Expr.call callee args keywords).children.mapM (eval ctx)) s = (types, m) →
        Recoverable types → Findings ctx (Passes ctx (Expr.call callee args keywords).children s) s m)
    (h : exec (evalCall ctx callee args keywords) s = (results, s'))
    (hresults : Recoverable results) :
    Findings ctx (Passes ctx [.call callee args keywords] s) s s' := by
  -- it gives nothing if it has no results
  have hnothing (hnone : ∀ given, results ≠ .ok (some given)) (given : List ElementType)
      (name : String) : ¬Gives ctx (.call callee args keywords) s given name := by
    rintro ⟨callee', args', keywords', r, heq, hexec, -⟩
    cases heq
    exact hnone given (Prod.mk.inj (h.symm.trans hexec)).1
  have hexec := h
  rw [evalCall_eq_callResults, exec_bind] at h
  match htypes : exec ((Expr.call callee args keywords).children.mapM (eval ctx)) s with
  | (.error halt, m) =>
    rw [htypes] at h
    obtain ⟨rfl, rfl⟩ := Prod.mk.inj h
    exact (hargs htypes hresults.error).withSelf (hnothing nofun)
  | (.ok types, m) =>
    rw [htypes] at h
    replace hargs := hargs htypes (.ok types)
    have hstate := (evolution_grows hgrows).callResults callee args keywords types (s := m)
    replace h : exec (callResults ctx callee args keywords types) m = (results, s') := h
    rw [exec_callResults] at h hstate
    cases hresolution : resolution ctx callee args keywords types m.table with
    | error halt =>
      rw [hresolution] at h
      obtain ⟨rfl, -⟩ := Prod.mk.inj h
      exact absurd (lasting_resolution hinfer _ _ _ _ _ _ hresolution) hresults.not_lasts
    | ok found =>
      obtain ⟨resolved, table⟩ := found
      rw [hresolution] at h hstate
      obtain ⟨rfl, rfl⟩ := Prod.mk.inj h
      obtain ⟨ht, hsound⟩ := hstate rfl hargs.sound
      cases resolved with
      | none =>
        exact Findings.withSelf ⟨hargs.grows.trans ht, hsound, hargs.recorded,
          fun hd hgives => (hargs.given hd hgives).grows ht⟩ (hnothing nofun)
      | some found =>
        exact hargs.withCall ht (hasResults_of_resolution hresolution) hsound hexec

omit hgrows hinfer in
theorem findings_mapM {types : Except Halt (List (Option ElementType))}
    (hes : ∀ e ∈ es, ∀ {s s' : State} {type : Except Halt (Option ElementType)}, s.Sound →
      exec (eval ctx e) s = (type, s') → Recoverable type →
        Findings ctx (Passes ctx [e] s) s s')
    (hs : s.Sound) (h : exec (es.mapM (eval ctx)) s = (types, s')) (htypes : Recoverable types) :
    Findings ctx (Passes ctx es s) s s' := by
  induction es generalizing s types with
  | nil =>
    obtain ⟨-, rfl⟩ := Prod.mk.inj h
    exact (Findings.refl hs).congr fun d m => ⟨nofun, False.elim⟩
  | cons e es ih =>
    rw [List.mapM_cons, exec_bind] at h
    match he : exec (eval ctx e) s with
    | (.error halt, m) =>
      rw [he] at h
      obtain ⟨rfl, rfl⟩ := Prod.mk.inj h
      exact (hes e (by simp) hs he htypes.error).congr fun d r => passes_cons_of_error he
    | (.ok type, m) =>
      rw [he] at h
      obtain ⟨rest, hrest, hrecoverable⟩ := Recoverable.of_bind_pure h htypes
      have hfirst := hes e (by simp) hs he (.ok type)
      have hothers := ih (fun e he => hes e (by simp [he])) hfirst.sound hrest hrecoverable
      exact (hfirst.trans hothers).congr fun d r => passes_cons_of_ok he

/-- Whatever is found before an evaluation ends is kept, if it ends well or at a temporary fault. -/
theorem findings_eval (e : Expr) {s s' : State} {type : Except Halt (Option ElementType)}
    (hs : s.Sound) (h : exec (eval ctx e) s = (type, s')) (htype : Recoverable type) :
    Findings ctx (Passes ctx [e] s) s s' := by
  have hmapM {types : Except Halt (List (Option ElementType))} {m : State}
      (htypes : exec ((operands e).mapM (eval ctx)) s = (types, m)) (hr : Recoverable types) :
      Findings ctx (Passes ctx (operands e) s) s m :=
    findings_mapM (fun c hc => fun hs h htype => findings_eval c hs h htype) hs htypes hr
  cases hcall : e.isCall with
  | false =>
    rw [eval_eq] at h
    refine (Findings.bind_quiet hmapM (quiet_conclude hcall) h htype).withSelf ?_
    rintro given name ⟨callee, args, keywords, r, rfl, -⟩
    cases hcall
  | true =>
    cases e with
    | call callee args keywords =>
      rw [eval_call] at h
      exact Findings.bind_quiet (findings_evalCall hgrows hinfer hmapM)
        (compatible_quiet.single _) h htype
    | _ => cases hcall
termination_by e.size
decreasing_by exact size_lt_of_mem_operands hc

theorem findings_evalTuple (e : Expr) {types : Except Halt (Option (List ElementType))}
    (hs : s.Sound) (h : exec (evalTuple ctx e) s = (types, s')) (htypes : Recoverable types) :
    Findings ctx (PassesTuple ctx e s) s s' := by
  have hmapM {types : Except Halt (List (Option ElementType))} {m : State}
      (htypes : exec ((tupleOperands e).mapM (eval ctx)) s = (types, m)) (hr : Recoverable types) :
      Findings ctx (Passes ctx (tupleOperands e) s) s m :=
    findings_mapM (fun c _ => fun hs h htype => findings_eval hgrows hinfer c hs h htype) hs htypes hr
  rw [evalTuple_eq] at h
  cases hcall : tupleCall? e with
  | none =>
    refine (Findings.bind_quiet hmapM (quiet_concludeTuple hcall) h htypes).congr fun d m => ?_
    rw [passesTuple_iff, hcall]
    simp
  | some call =>
    obtain ⟨callee, args, keywords, rfl, hchildren, f, hf, hconclude⟩ :=
      exists_concludeTuple_eq hcall
    rw [hchildren] at h hmapM
    rw [funext hconclude, ← bind_assoc, ← evalCall_eq_callResults] at h
    have hresults := Findings.bind_quiet (findings_evalCall hgrows hinfer hmapM) hf h htypes
    refine hresults.congr fun d m => ?_
    rw [passesTuple_iff, passes_single_iff, hcall, hchildren, Option.some.injEq, eq_comm]
    rfl

end Lasting

/-- What a caller that handed in a table gets back after an evaluation that passes these calls. -/
structure HandedBack (ctx : Context) (P : Expr → State → Prop) (t : Table) (s : State) : Prop where
  kept {name : String} {c : Callable} : t.get? name = some c → s.table.get? name = some c
  depth : s.table.depth = t.depth
  committed : s.table.committed = t.committed
  /-- What is pending is followed by the names of the new entries. -/
  pending : ∃ names, s.table.pending = t.pending ++ names ∧ t.NewNames s.table names
  /-- A recorded name was recorded for a call on the way. -/
  recorded {call : Expr} {name : String} : s.renames.get? call = some name →
    ∃ m results, P call m ∧ Gives ctx call m results name ∧ s.table.HasResults name results
  /-- Whenever a call was recorded, its entry has the results that were used for it. -/
  given {call : Expr} {m : State} {results : List ElementType} {name : String} :
    P call m → Gives ctx call m results name → s.table.HasResults name results

theorem Findings.handedBack {t : Table} (h : Findings ctx P (.start t) s) :
    HandedBack ctx P t s where
  kept := h.grows.get?
  depth := h.grows.depth_eq
  committed := h.grows.committed_eq
  pending := h.grows.exists_pending
  recorded hname := by
    obtain ⟨m, results, hd, hgives⟩ := (h.recorded hname).resolve_left nofun
    exact ⟨m, results, hd, hgives, h.given hd hgives⟩
  given := h.given

end Evaluation

open Evaluation

/-- **Evaluation hands its table back.**  Whenever it succeeds or meets a temporary fault, at
whatever depth, the caller has its entries, its transactions and what it had pending, the new entries
are pending, and the names recorded for calls are those of entries with the results that the calls
had on the way. -/
theorem evaluation_kept {target : Target} {fuel : Nat} {k : Kernel} {env : Env} {t : Table}
    (ht : t.isEditing = true) (e : Expr) :
    let ctx : Context := ⟨target, k, env, inferKernel target fuel true⟩
    (∀ type s, exec (eval ctx e) (.start t) = (type, s) → Recoverable type →
      HandedBack ctx (Passes ctx [e] (.start t)) t s) ∧
    ∀ types s, exec (evalTuple ctx e) (.start t) = (types, s) → Recoverable types →
      HandedBack ctx (PassesTuple ctx e (.start t)) t s := by
  intro ctx
  have hgrows : GrowsTable ctx.infer := inferKernel_grows target fuel true
  have hinfer : ∀ k t, FailsOnly Halt.Lasts (ctx.infer k t) := lasting_inferKernel target fuel true
  constructor
  · intro type s h htype
    exact (findings_eval hgrows hinfer e (.start ht) h htype).handedBack
  · intro types s h htypes
    exact (findings_evalTuple hgrows hinfer e (.start ht) h htypes).handedBack

/-- A kernel with a variable of unknown type. -/
def waitingKernel : Kernel := { Kernel.empty "waiting" with
  args := [⟨"x", .known .float32, .input⟩]
  temporaries := [⟨"u", .unknown, .temporary⟩] }

/-- The second summand waits for the type of a variable, after the call has been resolved. -/
def waitingSum : Expr := .nary .sum [absCall, .cast (.scalar .int8) (.var "u")]

def waitingContext : Context := ⟨.cLike, waitingKernel, ∅, inferKernel .cLike 4 true⟩

/-- What an evaluation comes to, with the name that the call of the builtin gets and the entries that
are pending then. -/
def evaluated {α : Type} (x : Eval α) : Except Halt α × Option String × List String :=
  (exec x (.start absTable)).map id fun s => (s.renames.get? absCall, s.table.pending)

theorem exec_of_evaluated {α : Type} {x : Eval α} {r : Except Halt α} {name? : Option String}
    {pending : List String} (h : evaluated x = (r, name?, pending)) :
    ∃ s, exec x (.start absTable) = (r, s) ∧ s.renames.get? absCall = name? ∧
      s.table.pending = pending := by
  obtain ⟨hresult, h⟩ := Prod.mk.inj h
  obtain ⟨hname, hpending⟩ := Prod.mk.inj h
  exact ⟨_, Prod.ext hresult rfl, hname, hpending⟩

/-- The sum meets a temporary fault, with its call resolved; the call alone succeeds. -/
theorem evaluation_kept_waitingSum :
    absTable.isEditing = true ∧
    (∃ f s, exec (eval waitingContext waitingSum) (.start absTable) = (.error (.fault f), s) ∧
      f.isTemporary = true ∧ s.table.pending = ["abs_0"] ∧
      s.table.get? "abs" = some (.ofBuiltin .abs) ∧
      ∃ m results, Passes waitingContext [waitingSum] (.start absTable) absCall m ∧
        Gives waitingContext absCall m results "abs_0" ∧ s.table.HasResults "abs_0" results) ∧
    ∃ s, exec (evalTuple waitingContext absCall) (.start absTable) =
        (.ok (some [.float32]), s) ∧ s.table.HasResults "abs_0" [.float32] := by
  have ht : absTable.isEditing = true := rfl
  refine ⟨ht, ?_, ?_⟩
  · have hrun : evaluated (eval waitingContext waitingSum) =
        (.error (.fault (.typeNotKnownYet (.var "u") ["u"])), some "abs_0", ["abs_0"]) := by cbv
    obtain ⟨s, hexec, hname, hpending⟩ := exec_of_evaluated hrun
    have hback := (evaluation_kept ht waitingSum).1 _ _ hexec (.temporary rfl)
    exact ⟨_, s, hexec, rfl, hpending, hback.kept (get?_absTable "abs"), hback.recorded hname⟩
  · have hrun : evaluated (evalTuple waitingContext absCall) =
        (.ok (some [.float32]), some "abs_0", ["abs_0"]) := by cbv
    obtain ⟨s, hexec, hname, -⟩ := exec_of_evaluated hrun
    have hback := (evaluation_kept ht absCall).2 _ _ hexec (.ok _)
    refine ⟨s, hexec, hback.given (.call rfl) ⟨_, _, _, s, rfl, ?_, hname⟩⟩
    rwa [absCall, evalTuple_call] at hexec

end KernelTyping
