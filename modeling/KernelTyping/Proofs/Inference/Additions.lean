import KernelTyping.Proofs.Inference.Preservation
import KernelTyping.Proofs.Inference.VisitedCalls
import KernelTyping.Proofs.Table.Transactions

/-!
# KernelTyping.Proofs.Inference.Additions — inference only adds to the table

Nothing is stored on the way of a run of inference but the answers of calls, so that a relation
between tables that holds of every answer that is put holds of the whole run (`Additive`).  Answers
have signatures: every new entry is a specialization under a name made for it
(`inferKernel_growsGenerated`).  So inference extends a table, at whatever depth of transactions, and
inference on a program also puts the typed kernel back under its name (`table_extended`).
-/

namespace KernelTyping

open Evaluation

namespace Evaluation

/-! ### What holds of every addition -/

/-- A relation between a table and one that has grown from it, which holds of the whole of inference
if it holds of inference on the kernels that are called and of each answer that is put into the
table. -/
structure Additive (ctx : Context) (T : Table → Table → Prop) : Prop where
  grows {t u : Table} : T t u → t.Grows u
  refl (t : Table) : T t t
  trans {t u v : Table} : T t u → T u v → T t v
  infer {k k' : Kernel} {t t' : Table} : ctx.infer k t = .ok (k', t') → T t t'
  put {callee : Callee} {args : List Expr} {keywords : List (String × Expr)}
    {types : List (Option ElementType)} {t u : Table} {c : Callable} {results : List ElementType} :
    t.isEditing = true →
      answer ctx callee args keywords types t = .ok (some (c, results), u) →
      T u (u.put c.name c).1

namespace Additive

variable {ctx : Context} {T : Table → Table → Prop}

/-- The types found so far take no part in an addition. -/
theorem withEnv (h : Additive ctx T) (env : Env) : Additive { ctx with env } T :=
  ⟨h.grows, h.refl, h.trans, h.infer, h.put⟩

variable (h : Additive ctx T)

include h

theorem growsTable : GrowsTable ctx.infer := fun _ _ _ _ hinfer => h.grows (h.infer hinfer)

/-- To resolve a call adds its answer to the table, and what inference on the kernel called adds. -/
theorem of_resolution {callee : Callee} {args : List Expr} {keywords : List (String × Expr)}
    {types : List (Option ElementType)} {t u : Table} {resolved : Option Resolved}
    (hedit : t.isEditing = true)
    (hresolution : resolution ctx callee args keywords types t = .ok (resolved, u)) : T t u := by
  rw [resolution_eq h.growsTable hedit] at hresolution
  match hanswer : answer ctx callee args keywords types t with
  | .error _ =>
    rw [hanswer] at hresolution
    cases hresolution
  | .ok (none, v) =>
    rw [hanswer] at hresolution
    obtain ⟨-, rfl⟩ := Prod.mk.inj (Except.ok.inj hresolution)
    exact answer_relates h.refl (fun _ _ _ _ => h.infer) hanswer
  | .ok (some (c, results), v) =>
    rw [hanswer] at hresolution
    obtain ⟨-, rfl⟩ := Prod.mk.inj (Except.ok.inj hresolution)
    have hv : T t v := answer_relates h.refl (fun _ _ _ _ => h.infer) hanswer
    exact h.trans hv (h.put hedit hanswer)

theorem evolution :
    Evolution ctx fun s s' => s.table.isEditing = true → T s.table s'.table where
  refl s _ := h.refl s.table
  trans hs hs' hedit := h.trans (hs hedit) (hs' ((h.grows (hs hedit)).isEditing_eq.trans hedit))
  note s name _ := h.refl s.table
  resolve {callee args keywords types s resolved table} hresolution hedit := by
    have hT := h.of_resolution hedit hresolution
    cases resolved <;> exact hT

end Additive

end Evaluation

namespace Inference

section Additive

variable {T : Table → Table → Prop}

/-- Every step of a run is an addition. -/
theorem Steps.additive {ctx : Context} {members : List Member} {p q : Progress}
    (hT : Additive ctx T) (h : Steps ctx members p q) (hp : p.table.isEditing = true) :
    T p.table q.table := by
  have hattempt {α : Type} {x : Eval (Option α)} {t : Table} {a : α} {s : State}
      (hx : Evolves (fun s s' => s.table.isEditing = true → T s.table s'.table) x)
      (ht : t.isEditing = true) (h : attempt x t = .ok (some a, s)) : T t s.table :=
    hx (attempt_eq_some.1 h) ht
  induction h with
  | refl => exact hT.refl p.table
  | @assign q m type s _ _ hfound ih =>
    have hq := (hT.grows ih).isEditing_eq.trans hp
    exact hT.trans ih (hattempt (evolution_writtenType { ctx with env := q.env }
      (hT.withEnv q.env).evolution m) hq hfound)
  | @resolve q i s _ _ hfound ih =>
    have hq := (hT.grows ih).isEditing_eq.trans hp
    exact hT.trans ih (hattempt (evolution_visit { ctx with env := q.env }
      (hT.withEnv q.env).evolution i) hq hfound)

theorem inferWith_additive {target : Target} {infer : Inference} {complete : Bool} {fuel : Nat}
    (hT : ∀ e, Additive ⟨target, e, startEnv e, infer⟩ T) {k k' : Kernel} {t t' : Table}
    (h : inferWith target infer complete fuel k t = .ok (k', t')) : T t t' := by
  obtain ⟨hedit, e, p, -, hp, hfinish⟩ := inferWith_eq_ok.1 h
  obtain ⟨-, rfl, -⟩ := finishKernel_eq_ok.1 hfinish
  exact (steps_of_inferExpanded hp).additive (hT e) hedit

end Additive

end Inference

open Inference

/-! ### New entries have signatures -/

/-- Inference on a kernel only adds specializations to the table, under names made for them. -/
theorem inferKernel_growsGenerated (target : Target) (fuel : Nat) (complete : Bool)
    {k k' : Kernel} {t t' : Table} (h : inferKernel target fuel complete k t = .ok (k', t')) :
    t.GrowsGenerated t' := by
  induction fuel generalizing complete k k' t t' with
  | zero => cases h
  | succ fuel ih =>
    refine inferWith_additive (fun e => ?_) h
    exact {
      grows := Table.GrowsGenerated.grows
      refl := .refl
      trans := .trans
      infer := ih true
      put := fun {callee args keywords types t u c results} hedit hanswer => by
        have hgrows : t.Grows u := answer_grows (inferKernel_grows target fuel true) hanswer
        exact .put (hgrows.isEditing_eq.trans hedit) (signature_of_answer hanswer) }

theorem inferKernel_growsSpecialized (target : Target) (fuel : Nat) (complete : Bool)
    {k k' : Kernel} {t t' : Table} (h : inferKernel target fuel complete k t = .ok (k', t')) :
    t.GrowsSpecialized t' :=
  (inferKernel_growsGenerated target fuel complete h).growsSpecialized

variable {target : Target} {fuel : Nat} {complete : Bool} {k k' : Kernel} {t t' u : Table}

theorem infer_extends (ht : t.Built) (h : infer target fuel complete k t = .ok (k', t')) :
    t.ExtendedBy t' ∧ t'.Built := by
  obtain ⟨v, hv, hcommit⟩ := infer_eq_ok_iff.1 h
  have hgrows := inferKernel_growsSpecialized target fuel complete hv
  have hbuilt : v.Built := ht.beginEdit.grows hgrows.grows
  by_cases hdepth : t.depth = 0
  · rw [Table.isOutermost_beginEdit hdepth, if_pos rfl] at hcommit
    exact ⟨.of_retainReachable ht hdepth hgrows hcommit,
      (hbuilt.retainReachable _).commitEdit ht hcommit⟩
  · have houter : t.beginEdit.2.isOutermost = false := by
      simp [Checkpoint.isOutermost, Table.beginEdit, hdepth]
    rw [houter, if_neg (by simp)] at hcommit
    exact ⟨.of_nested hdepth hgrows hcommit, hbuilt.commitEdit ht hcommit⟩

/-- Inference on a program, in two steps. -/
theorem inferProgram_eq_ok {entry : String} :
    inferProgram target fuel complete entry t = .ok u ↔
      ∃ c k k' t', t.get? entry = some c ∧ c.kernel? = some k ∧
        infer target fuel complete k t = .ok (k', t') ∧
        u = t'.insert entry { c with implementation := .kernel k' } := by
  unfold inferProgram
  constructor
  · intro h
    cases hentry : t.get? entry with
    | none =>
      rw [hentry] at h
      cases h
    | some c =>
      simp only [hentry] at h
      cases hkernel : c.kernel? with
      | none =>
        rw [hkernel] at h
        cases h
      | some k =>
        simp only [hkernel] at h
        obtain ⟨⟨k', t'⟩, hinfer, h⟩ := bind_eq_ok.1 h
        exact ⟨c, k, k', t', rfl, hkernel, hinfer, (Except.ok.inj h).symm⟩
  · rintro ⟨c, k, k', t', hentry, hkernel, hinfer, rfl⟩
    simp only [hentry, hkernel, hinfer, ok_bind]
    rfl

/-- **Inference only extends the table.**  From a table that operations have made, inference leaves
one as deep in transactions, in which every entry is what it was and every new entry has a recorded
signature.  Outside of transactions nothing stays pending and all entries are committed; inside, the
names of the new entries are appended to what is pending and nothing is committed.  Inference on a
program also changes the entry of the program, and nothing else. -/
theorem table_extended (ht : t.Built) :
    (∀ k k' t', infer target fuel complete k t = .ok (k', t') → t.ExtendedBy t' ∧ t'.Built) ∧
    ∀ entry u, inferProgram target fuel complete entry t = .ok u →
      ∃ c k k' t', t.get? entry = some c ∧ c.kernel? = some k ∧
        infer target fuel complete k t = .ok (k', t') ∧ t.ExtendedBy t' ∧
        u.get? entry = some { c with implementation := .kernel k' } ∧
        (∀ name, name ≠ entry → u.get? name = t'.get? name) ∧
        u.depth = t'.depth ∧ u.pending = t'.pending ∧ u.committed = t'.committed ∧ u.Built := by
  refine ⟨fun k k' t' h => infer_extends ht h, fun entry u h => ?_⟩
  obtain ⟨c, k, k', t', hentry, hkernel, hinfer, rfl⟩ := inferProgram_eq_ok.1 h
  obtain ⟨hextended, hbuilt⟩ := infer_extends ht hinfer
  have hcontains : t'.contains entry = true := by
    rw [Table.contains_eq_isSome, hextended.kept hentry]
    rfl
  have hcommitted : t'.isEditing = false → t'.committed = t'.size := by
    intro hedit
    refine (hextended.outside ?_).2
    rwa [Table.isEditing, hextended.depth] at hedit
  obtain ⟨hdepth, hpending, hcount⟩ := Table.insert_of_contains hcontains hcommitted
    { c with implementation := .kernel k' }
  refine ⟨c, k, k', t', hentry, hkernel, hinfer, hextended, ?_, fun name hname => ?_, hdepth,
    hpending, hcount, hbuilt.insert _ _⟩
  · rw [Table.get?_insert, if_pos rfl]
  · rw [Table.get?_insert, if_neg (Ne.symm hname)]

/-- A table in which a program was registered inside a transaction that is still open. -/
def programTable : Table := absTable.insert "cyclic" (.ofKernel cyclicKernel)

theorem built_programTable : programTable.Built :=
  (Table.Built.empty.insert _ _).beginEdit.insert _ _

theorem pending_programTable :
    (inferKernel .cLike 8 true cyclicKernel programTable.beginEdit.1).map (·.2.pending) =
      .ok ["cyclic", "abs_0"] := by
  have hopen : programTable.beginEdit.1 =
      ⟨absTable.entries.insert "cyclic" (.ofKernel cyclicKernel), ["cyclic"], 1, 2⟩ := rfl
  rw [hopen]
  cbv

theorem table_extended_programTable :
    programTable.Built ∧ ∃ k' t' u, infer .cLike 8 true cyclicKernel programTable = .ok (k', t') ∧
      programTable.ExtendedBy t' ∧ t'.pending = ["cyclic", "abs_0"] ∧
      inferProgram .cLike 8 true "cyclic" programTable = .ok u ∧ u.pending = t'.pending ∧
      u.get? "cyclic" = some ⟨"cyclic", none, .kernel k'⟩ := by
  obtain ⟨-, hprogram⟩ := @table_extended .cLike 8 true programTable built_programTable
  obtain ⟨⟨k', v⟩, hv, hpending⟩ := map_eq_ok.1 pending_programTable
  obtain ⟨t', h⟩ := exists_infer_of_inferKernel hv
  -- a transaction inside another one leaves everything pending
  have hpending : t'.pending = ["cyclic", "abs_0"] := by
    obtain ⟨w, hw, hcommit⟩ := infer_eq_ok_iff.1 h
    obtain ⟨-, rfl⟩ := Prod.mk.inj (Except.ok.inj (hv.symm.trans hw))
    obtain ⟨-, rfl⟩ := Table.commitEdit_eq_ok.1 hcommit
    exact hpending
  have hentry : programTable.get? "cyclic" = some (.ofKernel cyclicKernel) := by
    rw [programTable, Table.get?_insert, if_pos rfl]
  obtain ⟨u, hu⟩ : ∃ u, inferProgram .cLike 8 true "cyclic" programTable = .ok u :=
    ⟨_, inferProgram_eq_ok.2 ⟨_, _, k', t', hentry, rfl, h, rfl⟩⟩
  obtain ⟨c, k, k'', t'', hentry', hkernel, h', hextended, htyped, -, -, hsame, -⟩ :=
    hprogram "cyclic" u hu
  obtain rfl := Option.some.inj (hentry'.symm.trans hentry)
  obtain rfl := Option.some.inj hkernel
  obtain ⟨rfl, rfl⟩ := Prod.mk.inj (Except.ok.inj (h'.symm.trans h))
  exact ⟨built_programTable, k'', t'', u, h, hextended, hpending, hu, hsame, htyped⟩

end KernelTyping
