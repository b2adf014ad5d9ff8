import KernelTyping.Proofs.Evaluation.Agreement

/-!
# KernelTyping.Proofs.Evaluation.Rerun — evaluating again from a larger table

An evaluation that succeeded has put all its specializations into the table.  From any table that
has grown from there it finds the same again, names included, and adds nothing (`Repeats`).
-/

namespace KernelTyping.Evaluation

/-- Inference on a kernel that calls such entries only finds the same again from a table that has
grown, and adds nothing to it. -/
def Reruns (R : String → Prop) (infer : Inference) : Prop :=
  ∀ ⦃k t k' u v⦄, k.CallsOnly R → Table.Linked R t → infer k t = .ok (k', u) → u.Grows v →
    infer k v = .ok (k', v)

variable {R : String → Prop} {ctx : Context} {t u v : Table}

theorem specialize_rerun (hinfer : Reruns R ctx.infer) {c c' : Callable}
    (hc : ∀ callee ∈ c.callees, R callee) {incoming : Incoming} (ht : Table.Linked R t)
    (h : c.specialize ctx.target ctx.infer ctx.kernel incoming t = .ok (c', u)) (hv : u.Grows v) :
    c.specialize ctx.target ctx.infer ctx.kernel incoming v = .ok (c', v) := by
  unfold Callable.specialize at h ⊢
  cases himpl : c.implementation with
  | builtin f =>
    simp only [himpl] at h
    obtain ⟨c'', hc'', h⟩ := bind_eq_ok.1 h
    obtain ⟨rfl, rfl⟩ := Prod.mk.inj (Except.ok.inj h)
    exact bind_eq_ok.2 ⟨c'', hc'', rfl⟩
  | matched matcher spelling =>
    simp only [himpl] at h
    obtain ⟨c'', hc'', h⟩ := bind_eq_ok.1 h
    obtain ⟨rfl, rfl⟩ := Prod.mk.inj (Except.ok.inj h)
    exact bind_eq_ok.2 ⟨c'', hc'', rfl⟩
  | kernel callee =>
    simp only [himpl, Callable.specializeKernel] at h ⊢
    obtain ⟨callee', hcallee, h⟩ := bind_eq_ok.1 h
    refine bind_eq_ok.2 ⟨callee', hcallee, ?_⟩
    have hcallee := calledEntries_receiveAll (Outcome.lift_eq_ok.1 hcallee)
    have honly : callee'.CallsOnly R := by
      intro name hname
      refine hc name ?_
      rw [hcallee] at hname
      simpa [Callable.callees, Callable.kernel?, himpl] using hname
    split at h
    case isTrue hopen =>
      obtain ⟨rfl, rfl⟩ := Prod.mk.inj (Except.ok.inj h)
      rw [if_pos hopen]
      rfl
    case isFalse hopen =>
      obtain ⟨⟨typed, t'⟩, htyped, h⟩ := bind_eq_ok.1 h
      obtain ⟨signature, hsignature, h⟩ := bind_eq_ok.1 h
      obtain ⟨rfl, rfl⟩ := Prod.mk.inj (Except.ok.inj h)
      rw [if_neg hopen]
      exact bind_eq_ok.2 ⟨(typed, v), hinfer honly ht htyped hv,
        bind_eq_ok.2 ⟨signature, hsignature, rfl⟩⟩

theorem answer_rerun (hinfer : Reruns R ctx.infer) {callee : Callee}
    (hcallee : ∀ name, callee = .entry name → R name) {args : List Expr}
    {keywords : List (String × Expr)} {types : List (Option ElementType)}
    {a : Option (Callable × List ElementType)} (ht : Table.Linked R t)
    (h : answer ctx callee args keywords types t = .ok (a, u)) (htu : t.Grows u) (hv : u.Grows v) :
    answer ctx callee args keywords types v = .ok (a, v) := by
  cases callee with
  | bare name =>
    obtain ⟨rfl, rfl⟩ := Prod.mk.inj (Except.ok.inj h)
    rfl
  | entry name =>
    obtain ⟨c, hname, -, hc⟩ := ht name (hcallee name rfl)
    simp only [answer, specializeEntry, hname, (htu.trans hv).get? hname, bind_assoc] at h ⊢
    obtain ⟨_, hoverwrite, h⟩ := bind_eq_ok.1 h
    obtain ⟨⟨c', t'⟩, hspecialize, h⟩ := bind_eq_ok.1 h
    obtain ⟨rfl, rfl⟩ := Prod.mk.inj (Except.ok.inj h)
    exact bind_eq_ok.2 ⟨(), hoverwrite,
      bind_eq_ok.2 ⟨(c', v), specialize_rerun hinfer hc ht hspecialize hv, rfl⟩⟩

/-! ### Evaluations that repeat -/

/-- From a sound state an evaluation that succeeds only adds to the table; it finds the same again
from any table that has grown since, and leaves that table as it is. -/
structure Repeats (R : String → Prop) {α : Type} (x : Eval α) : Prop where
  grows : Evolves (fun s s' => s.Sound → s.table.Grows s'.table ∧ s'.Sound) x
  rerun {s s' : State} {a : α} {v : Table} : s.Sound → Table.Linked R s.table →
    exec x s = (.ok a, s') → s'.table.Grows v →
      exec x { s with table := v } = (.ok a, { s' with table := v })

theorem Repeats.bind {α β : Type} {x : Eval α} {f : α → Eval β} (hx : Repeats R x)
    (hf : ∀ a, Repeats R (f a)) : Repeats R (x >>= f) where
  grows s b s' h hs := by
    obtain ⟨a, m, hxs, hfm⟩ := exec_bind_eq_ok.1 h
    obtain ⟨hgrows, hsound⟩ := hx.grows hxs hs
    obtain ⟨hgrows', hsound'⟩ := (hf a).grows hfm hsound
    exact ⟨hgrows.trans hgrows', hsound'⟩
  rerun {s s' b v} hs hlinked h hv := by
    obtain ⟨a, m, hxs, hfm⟩ := exec_bind_eq_ok.1 h
    obtain ⟨hgrows, hsound⟩ := hx.grows hxs hs
    obtain ⟨hgrows', -⟩ := (hf a).grows hfm hsound
    rw [exec_bind_of_ok (hx.rerun hs hlinked hxs (hgrows'.trans hv))]
    exact (hf a).rerun hsound (hlinked.grows hgrows) hfm hv

theorem compatible_repeats : Compatible fun _ x y => x = y ∧ Repeats R x where
  pure a := by
    refine ⟨rfl, fun s b s' h hs => ?_, fun _ _ h _ => ?_⟩
    · obtain ⟨-, rfl⟩ := Prod.mk.inj h
      exact ⟨.refl _, hs⟩
    · obtain ⟨ha, rfl⟩ := Prod.mk.inj h
      rw [← ha]
      rfl
  bind h hfg := ⟨by rw [h.1, funext fun a => (hfg a).1], h.2.bind fun a => (hfg a).2⟩
  fault cause := ⟨rfl, ⟨fun _ _ _ h => (nomatch h), fun _ _ h _ => nomatch h⟩⟩
  notKnownYet e := ⟨rfl, ⟨fun _ _ _ h => (nomatch h), fun _ _ h _ => nomatch h⟩⟩

theorem repeats_variableType (hgrows : GrowsTable ctx.infer) (name : String) :
    Repeats R (variableType ctx name) where
  grows := (evolution_grows hgrows).variableType name
  rerun {s s' a v} _ _ h _ := by
    obtain ⟨type?, missing, hexec⟩ := exists_exec_variableType ctx name
    rw [hexec] at h ⊢
    obtain ⟨rfl, rfl⟩ := Prod.mk.inj h
    cases missing <;> rfl

theorem repeats_callResults (hgrows : GrowsTable ctx.infer) (hinfer : Reruns R ctx.infer)
    {callee : Callee} (hcallee : ∀ name, callee = .entry name → R name) (args : List Expr)
    (keywords : List (String × Expr)) (types : List (Option ElementType)) :
    Repeats R (callResults ctx callee args keywords types) where
  grows := (evolution_grows hgrows).callResults callee args keywords types
  rerun {s s' results v} hs hlinked h hv := by
    have hstate := (evolution_grows hgrows).callResults callee args keywords types h hs
    have hedit : v.isEditing = true :=
      (hv.isEditing_eq.trans hstate.1.isEditing_eq).trans hs.editing
    rw [exec_callResults_of_isEditing hgrows callee args keywords types
      (s := { s with table := v }) hedit]
    rcases callResults_cases hgrows hs.editing h with
      ⟨t, hanswer, rfl, rfl⟩ | ⟨c, found, t, hanswer, rfl, rfl⟩
    · rw [answer_rerun hinfer hcallee hlinked hanswer (answer_grows hgrows hanswer) hv]
    · have ht : s.table.Grows t := answer_grows hgrows hanswer
      have hput : t.Grows (t.put c.name c).1 := .put (ht.isEditing_eq.trans hs.editing) _ _
      have hname : v.put c.name c = (v, (t.put c.name c).2) :=
        Table.put_of_nameOf? (hv.nameOf? (t.nameOf?_put _ _))
      rw [answer_rerun hinfer hcallee hlinked hanswer ht (hput.trans hv)]
      dsimp only
      rw [hname]

/-! ### Expressions -/

variable (hgrows : GrowsTable ctx.infer) (hinfer : Reruns R ctx.infer)

include hgrows hinfer

theorem repeats_eval {e : Expr} (he : CallsOnly R e) : Repeats R (eval ctx e) := by
  refine (compatible_repeats.eval rfl e
    (fun name _ => ⟨rfl, repeats_variableType hgrows name⟩) ?_).2
  intro callee args keywords types hvisits
  refine ⟨rfl, repeats_callResults hgrows hinfer ?_ args keywords types⟩
  rintro name rfl
  exact he name (hvisits.mentions (Expr.mentions_call _ _ _))

theorem repeats_evalTuple {e : Expr} (he : CallsOnly R e) : Repeats R (evalTuple ctx e) := by
  refine (compatible_repeats.evalTuple rfl e
    (fun name _ => ⟨rfl, repeats_variableType hgrows name⟩) ?_).2
  intro callee args keywords types hvisits
  refine ⟨rfl, repeats_callResults hgrows hinfer ?_ args keywords types⟩
  rintro name rfl
  exact he name (hvisits.mentions (Expr.mentions_call _ _ _))

end KernelTyping.Evaluation
