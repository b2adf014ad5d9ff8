import KernelTyping.Proofs.Evaluation.Rerun

/-!
# KernelTyping.Proofs.Evaluation.Grounded — entries from which every reference leads to an entry

An entry is grounded if all that can be reached from it has entries (`Table.Grounded`).  A table that
grows by grounded entries only (`Table.GrowsGrounded`) has done so at every table on the way
(`GrowsGrounded.groundedAt_between`).  So a name that had no entry when an evaluation began can be
called as soon as it has one, as if it had always been there: an evaluation that calls only names
that are grounded or have no entry gives the same again from any table that has grown out of its
result (`repeatsAt_eval`).
-/

namespace KernelTyping

open Evaluation

/-! ### Grounded entries -/

namespace Table

variable {R : String → Prop} {t u v : Table} {name : String} {c : Callable}

/-- The name has an entry, and so has all that can be reached from it. -/
def Grounded (t : Table) (name : String) : Prop := ∃ R, Linked R t ∧ R name

theorem linked_grounded (t : Table) : Linked t.Grounded t := by
  rintro name ⟨R, hR, hname⟩
  obtain ⟨c, hc, -, hcallees⟩ := hR name hname
  exact ⟨c, hc, hc, fun callee hcallee => ⟨R, hR, hcallees callee hcallee⟩⟩

theorem Grounded.grows (h : t.Grounded name) (hgrows : t.Grows u) : u.Grounded name := by
  obtain ⟨R, hR, hname⟩ := h
  exact ⟨R, hR.grows hgrows, hname⟩

/-- An entry that refers to grounded names is grounded. -/
theorem grounded_of_get? (hname : t.get? name = some c)
    (hc : ∀ callee ∈ c.callees, t.Grounded callee) : t.Grounded name := by
  refine ⟨fun other => other = name ∨ t.Grounded other, ?_, .inl rfl⟩
  rintro other (rfl | hother)
  · exact ⟨c, hname, hname, fun callee hcallee => .inr (hc callee hcallee)⟩
  · obtain ⟨d, hd, -, hcallees⟩ := t.linked_grounded other hother
    exact ⟨d, hd, hd, fun callee hcallee => .inr (hcallees callee hcallee)⟩

/-- Of these names, those that have an entry are grounded. -/
def GroundedAt (R : String → Prop) (t : Table) : Prop :=
  ∀ name, R name → t.contains name = true → t.Grounded name

theorem Linked.groundedAt (h : Linked R t) : GroundedAt R t :=
  fun _ hname _ => ⟨R, h, hname⟩

/-- No entry at these names refers to a name without an entry. -/
def Intact (R : String → Prop) (t : Table) : Prop :=
  ∀ name c, R name → t.get? name = some c → ∀ callee ∈ c.callees, t.contains callee = true

/-- In a set of names that is closed under references, those with an entry are grounded. -/
theorem Intact.groundedAt (h : Intact R t)
    (hclosed : ∀ name c, R name → t.get? name = some c → ∀ callee ∈ c.callees, R callee) :
    GroundedAt R t := by
  intro name hname hcontains
  refine ⟨fun other => R other ∧ t.contains other = true, ?_, hname, hcontains⟩
  rintro other ⟨hother, hentry⟩
  rw [contains_eq_isSome] at hentry
  obtain ⟨c, hc⟩ := Option.isSome_iff_exists.1 hentry
  exact ⟨c, hc, hc, fun callee hcallee =>
    ⟨hclosed other c hother hc callee hcallee, h other c hother hc callee hcallee⟩⟩

/-- Of the names that can be reached from a kernel, those with an entry are grounded. -/
theorem Intact.groundedAt_reaches {k : Kernel} (h : Intact (t.Reaches k) t) :
    GroundedAt (t.Reaches k) t :=
  h.groundedAt fun _ _ hname hc _ hcallee => hname.callee hc hcallee

/-- Where every name that can be reached has an entry, no entry refers to a name without one. -/
theorem LinkedFrom.intact {k : Kernel} (h : t.LinkedFrom k) : Intact (t.Reaches k) t :=
  fun _ _ hname hc callee hcallee => h callee (hname.callee hc hcallee)

/-- The second table comes from the first by storing callables that refer to grounded names. -/
inductive GrowsGrounded : Table → Table → Prop where
  | refl (t : Table) : GrowsGrounded t t
  | store {t u v : Table} {base name : String} {c : Callable} :
    GrowsGrounded t u → (∀ callee ∈ c.callees, u.Grounded callee) →
      u.store base c = .ok (v, name) → GrowsGrounded t v

namespace GrowsGrounded

theorem grows (h : GrowsGrounded t u) : t.Grows u := by
  induction h with
  | refl => exact .refl _
  | store _ _ hstore ih => exact ih.store hstore

theorem trans (htu : GrowsGrounded t u) (huv : GrowsGrounded u v) : GrowsGrounded t v := by
  induction huv with
  | refl => exact htu
  | store _ hc hstore ih => exact ih.store hc hstore

/-- On every table on the way, names that have got an entry meanwhile are grounded too. -/
theorem groundedAt_between (h : GrowsGrounded t v) (ht : GroundedAt R t) (htu : t.Grows u)
    (huv : u.Grows v) : GroundedAt R u := by
  induction h generalizing u with
  | refl => exact fun name hname hcontains => (ht name hname (huv.contains hcontains)).grows htu
  | @store w _ base _ c h hc hstore ih =>
    obtain ⟨-, ⟨-, rfl⟩ | ⟨-, -, rfl⟩⟩ := store_eq_ok.1 hstore
    · exact ih htu huv
    · rcases huv.of_addFresh with rfl | huw
      · -- the table to which the callable was just added
        have hgrows : w.Grows (w.addFresh base c) := .of_store hstore
        intro name hname hcontains
        by_cases hfresh : w.freshName base = name
        · refine grounded_of_get? (c := c) (by rw [get?_addFresh, if_pos hfresh]) ?_
          exact fun callee hcallee => (hc callee hcallee).grows hgrows
        · rw [contains_eq_isSome, get?_addFresh, if_neg hfresh, ← contains_eq_isSome] at hcontains
          exact (ih h.grows (.refl w) name hname hcontains).grows hgrows
      · exact ih htu huw

/-- Names that have got an entry meanwhile are grounded too. -/
theorem groundedAt (h : GrowsGrounded t u) (ht : GroundedAt R t) : GroundedAt R u :=
  h.groundedAt_between ht h.grows (.refl u)

/-- A callable that refers to grounded names can be put. -/
theorem put (ht : t.isEditing = true) (base : String)
    (hc : ∀ callee ∈ c.callees, t.Grounded callee) :
    GrowsGrounded t (t.put base c).1 ∧ (t.put base c).1.Grounded (t.put base c).2 := by
  have hgrows : t.Grows (t.put base c).1 := .put ht base c
  refine ⟨@store t t (t.put base c).1 base (t.put base c).2 c (.refl t) hc
    (store_of_isEditing ht base c), ?_⟩
  exact grounded_of_get? (get?_put t base c) fun callee hcallee => (hc callee hcallee).grows hgrows

end GrowsGrounded

end Table

namespace Evaluation

variable {ctx : Context} {R : String → Prop} {t u : Table}

/-! ### Answers -/

/-- Inference on a kernel that calls grounded entries gives one that does, and adds only grounded
entries. -/
def Grounding (infer : Inference) : Prop :=
  ∀ ⦃k t k' u⦄, k.CallsOnly t.Grounded → infer k t = .ok (k', u) →
    t.GrowsGrounded u ∧ k'.CallsOnly u.Grounded

theorem specialize_grounded {target : Target} {infer : Inference} (hinfer : Grounding infer)
    {caller : Kernel} {c c' : Callable} {incoming : Incoming}
    (hc : ∀ callee ∈ c.callees, t.Grounded callee)
    (h : c.specialize target infer caller incoming t = .ok (c', u)) :
    t.GrowsGrounded u ∧ ∀ callee ∈ c'.callees, u.Grounded callee := by
  rcases specialize_cases h with ⟨rfl, rfl | hnone⟩ | ⟨k, passed, typed, hk, hpassed, hinferred, hk'⟩
  · exact ⟨.refl _, hc⟩
  · refine ⟨.refl _, fun callee hcallee => ?_⟩
    rw [Callable.callees, hnone] at hcallee
    cases hcallee
  · have honly : passed.CallsOnly t.Grounded := by
      intro name hname
      refine hc name ?_
      rw [calledEntries_receiveAll hpassed] at hname
      simpa [Callable.callees, hk] using hname
    obtain ⟨hgrows, htyped⟩ := hinfer honly hinferred
    refine ⟨hgrows, fun callee hcallee => htyped callee ?_⟩
    simpa [Callable.callees, hk'] using hcallee

/-- The answer of a call of a grounded entry refers to grounded entries. -/
theorem answer_grounded (hinfer : Grounding ctx.infer) {callee : Callee}
    (hcallee : ∀ name, callee = .entry name → t.contains name = true → t.Grounded name)
    {args : List Expr} {keywords : List (String × Expr)} {types : List (Option ElementType)}
    {a : Option (Callable × List ElementType)}
    (h : answer ctx callee args keywords types t = .ok (a, u)) :
    t.GrowsGrounded u ∧
      ∀ c results, a = some (c, results) → ∀ callee ∈ c.callees, u.Grounded callee := by
  cases callee with
  | bare name =>
    obtain ⟨rfl, rfl⟩ := Prod.mk.inj (Except.ok.inj h)
    refine ⟨.refl _, fun c results hfound callee hcallee => ?_⟩
    obtain ⟨_, -, hpair⟩ := Option.map_eq_some_iff.1 hfound
    obtain ⟨rfl, -⟩ := Prod.mk.inj hpair
    cases hcallee
  | entry name =>
    obtain ⟨⟨c', v⟩, hspecialized, h⟩ := bind_eq_ok.1 h
    obtain ⟨rfl, rfl⟩ := Prod.mk.inj (Except.ok.inj h)
    have hname : t.Grounded name :=
      hcallee name rfl (contains_of_specializeEntry hspecialized)
    obtain ⟨c, hc, -, hcallees⟩ := t.linked_grounded name hname
    simp only [specializeEntry, hc] at hspecialized
    obtain ⟨_, -, hspecialized⟩ := bind_eq_ok.1 hspecialized
    obtain ⟨hgrows, hspecialization⟩ := specialize_grounded hinfer hcallees hspecialized
    refine ⟨hgrows, fun d results hfound => ?_⟩
    obtain ⟨_, -, hpair⟩ := Option.map_eq_some_iff.1 hfound
    obtain ⟨rfl, -⟩ := Prod.mk.inj hpair
    exact hspecialization

/-! ### Evaluations -/

/-- A sound state in which those of the names that have an entry are grounded, and so is every name
that is recorded. -/
structure State.Grounded (R : String → Prop) (s : State) : Prop where
  sound : s.Sound
  table : Table.GroundedAt R s.table
  renames {call : Expr} {name : String} :
    s.renames.get? call = some name → s.table.Grounded name

theorem State.Grounded.start (ht : t.isEditing = true) (h : Table.GroundedAt R t) :
    (State.start t).Grounded R where
  sound := .start ht
  table := h
  renames hname := nomatch hname

/-- From a grounded state an evaluation that succeeds adds only grounded entries; it finds the same
again from any table that has grown since, and leaves that table as it is. -/
structure RepeatsAt (R : String → Prop) {α : Type} (x : Eval α) : Prop where
  grows : Evolves (fun s s' => s.Sound → s.table.Grows s'.table ∧ s'.Sound) x
  grounds : Evolves
    (fun s s' => s.Grounded R → s.table.GrowsGrounded s'.table ∧ s'.Grounded R) x
  rerun {s s' : State} {a : α} {v : Table} : s.Grounded R → exec x s = (.ok a, s') →
    s'.table.Grows v → exec x { s with table := v } = (.ok a, { s' with table := v })

theorem RepeatsAt.bind {α β : Type} {x : Eval α} {f : α → Eval β} (hx : RepeatsAt R x)
    (hf : ∀ a, RepeatsAt R (f a)) : RepeatsAt R (x >>= f) where
  grows s b s' h hs := by
    obtain ⟨a, m, hxs, hfm⟩ := exec_bind_eq_ok.1 h
    obtain ⟨hgrows, hm⟩ := hx.grows hxs hs
    obtain ⟨hgrows', hs'⟩ := (hf a).grows hfm hm
    exact ⟨hgrows.trans hgrows', hs'⟩
  grounds s b s' h hs := by
    obtain ⟨a, m, hxs, hfm⟩ := exec_bind_eq_ok.1 h
    obtain ⟨hgrows, hm⟩ := hx.grounds hxs hs
    obtain ⟨hgrows', hs'⟩ := (hf a).grounds hfm hm
    exact ⟨hgrows.trans hgrows', hs'⟩
  rerun {s s' b v} hs h hv := by
    obtain ⟨a, m, hxs, hfm⟩ := exec_bind_eq_ok.1 h
    obtain ⟨-, hm⟩ := hx.grounds hxs hs
    obtain ⟨hgrows, -⟩ := (hf a).grounds hfm hm
    rw [exec_bind_of_ok (hx.rerun hs hxs (hgrows.grows.trans hv))]
    exact (hf a).rerun hm hfm hv

theorem compatible_repeatsAt : Compatible fun _ x y => x = y ∧ RepeatsAt R x where
  pure a := by
    refine ⟨rfl, fun s b s' h hs => ?_, fun s b s' h hs => ?_, fun _ h _ => ?_⟩
    · obtain ⟨-, rfl⟩ := Prod.mk.inj h
      exact ⟨.refl _, hs⟩
    · obtain ⟨-, rfl⟩ := Prod.mk.inj h
      exact ⟨.refl _, hs⟩
    · obtain ⟨ha, rfl⟩ := Prod.mk.inj h
      rw [← ha]
      rfl
  bind h hfg := ⟨by rw [h.1, funext fun a => (hfg a).1], h.2.bind fun a => (hfg a).2⟩
  fault cause :=
    ⟨rfl, ⟨fun _ _ _ h => (nomatch h), fun _ _ _ h => (nomatch h), fun _ h _ => nomatch h⟩⟩
  notKnownYet e :=
    ⟨rfl, ⟨fun _ _ _ h => (nomatch h), fun _ _ _ h => (nomatch h), fun _ h _ => nomatch h⟩⟩

/-- What is found from a table on the way is found from a later one, if only grounded entries were
added. -/
theorem RepeatsAt.exec_of_between {α : Type} {x : Eval α} (hx : RepeatsAt R x)
    (ht : t.isEditing = true) (hR : Table.GroundedAt R t) (hgrown : t.GrowsGrounded u) {T : Table}
    {a : α} {s : State} (hT : t.Grows T) (h : exec x (.start T) = (.ok a, s))
    (hs : s.table.Grows u) : exec x (.start u) = (.ok a, { s with table := u }) := by
  have hedit : T.isEditing = true := hT.isEditing_eq.trans ht
  obtain ⟨hTs, -⟩ := hx.grows h (.start hedit)
  have hgrounded := hgrown.groundedAt_between hR hT (hTs.trans hs)
  exact hx.rerun (.start hedit hgrounded) h hs

section Context

variable (hgrows : GrowsTable ctx.infer) (hreruns : ∀ R, Reruns R ctx.infer)

theorem repeatsAt_variableType (hgrows : GrowsTable ctx.infer) (name : String) :
    RepeatsAt R (variableType ctx name) where
  grows := (evolution_grows hgrows).variableType name
  grounds s a s' h hs := by
    obtain ⟨-, hsound⟩ := (evolution_grows hgrows).variableType name h hs.sound
    obtain ⟨type?, missing, hexec⟩ := exists_exec_variableType ctx name
    rw [hexec] at h
    obtain ⟨-, rfl⟩ := Prod.mk.inj h
    cases missing <;> exact ⟨.refl _, hsound, hs.table, hs.renames⟩
  rerun {s s' a v} hs h hv :=
    (repeats_variableType hgrows name).rerun hs.sound s.table.linked_grounded h hv

variable (hinfer : Grounding ctx.infer)

include hgrows hreruns hinfer

theorem repeatsAt_callResults {callee : Callee} (hcallee : ∀ name, callee = .entry name → R name)
    (args : List Expr) (keywords : List (String × Expr)) (types : List (Option ElementType)) :
    RepeatsAt R (callResults ctx callee args keywords types) where
  grows := (evolution_grows hgrows).callResults callee args keywords types
  grounds s results s' h hs := by
    obtain ⟨-, hsound⟩ :=
      (evolution_grows hgrows).callResults callee args keywords types h hs.sound
    have hgrounded {a : Option (Callable × List ElementType)} {t : Table}
        (hanswer : answer ctx callee args keywords types s.table = .ok (a, t)) :=
      answer_grounded hinfer
        (fun name hname hcontains => hs.table name (hcallee name hname) hcontains) hanswer
    rcases callResults_cases hgrows hs.sound.editing h with
      ⟨t, hanswer, -, rfl⟩ | ⟨c, found, t, hanswer, -, rfl⟩
    · obtain ⟨ht, -⟩ := hgrounded hanswer
      exact ⟨ht, hsound, ht.groundedAt hs.table, fun hname => (hs.renames hname).grows ht.grows⟩
    · obtain ⟨ht, hcallees⟩ := hgrounded hanswer
      have hedit : t.isEditing = true := ht.grows.isEditing_eq.trans hs.sound.editing
      obtain ⟨hput, hstored⟩ := Table.GrowsGrounded.put hedit c.name (hcallees c found rfl)
      have htotal := ht.trans hput
      refine ⟨htotal, hsound, htotal.groundedAt hs.table, fun {call name} hname => ?_⟩
      rw [Renames.get?_insert] at hname
      split at hname
      · obtain rfl := Option.some.inj hname
        exact hstored
      · exact (hs.renames hname).grows htotal.grows
  rerun {s s' results v} hs h hv := by
    -- a name that the call refers to has an entry, since it was resolved
    have hentry (name : String) (hname : callee = .entry name) : s.table.Grounded name := by
      subst hname
      refine hs.table name (hcallee name rfl) ?_
      rcases callResults_cases hgrows hs.sound.editing h with
        ⟨t, hanswer, -, -⟩ | ⟨c, found, t, hanswer, -, -⟩
      · exact contains_of_answer hanswer
      · exact contains_of_answer hanswer
    exact (repeats_callResults hgrows (hreruns s.table.Grounded) hentry args keywords types).rerun
      hs.sound s.table.linked_grounded h hv

theorem repeatsAt_eval {e : Expr} (he : CallsOnly R e) : RepeatsAt R (eval ctx e) := by
  refine (compatible_repeatsAt.eval rfl e
    (fun name _ => ⟨rfl, repeatsAt_variableType hgrows name⟩) ?_).2
  intro callee args keywords types hvisits
  refine ⟨rfl, repeatsAt_callResults hgrows hreruns hinfer ?_ args keywords types⟩
  rintro name rfl
  exact he name (hvisits.mentions (Expr.mentions_call _ _ _))

theorem repeatsAt_evalTuple {e : Expr} (he : CallsOnly R e) : RepeatsAt R (evalTuple ctx e) := by
  refine (compatible_repeatsAt.evalTuple rfl e
    (fun name _ => ⟨rfl, repeatsAt_variableType hgrows name⟩) ?_).2
  intro callee args keywords types hvisits
  refine ⟨rfl, repeatsAt_callResults hgrows hreruns hinfer ?_ args keywords types⟩
  rintro name rfl
  exact he name (hvisits.mentions (Expr.mentions_call _ _ _))

end Context

end Evaluation

end KernelTyping
