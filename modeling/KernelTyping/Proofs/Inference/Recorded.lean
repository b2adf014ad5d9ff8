import KernelTyping.Proofs.Inference.Steps

/-!
# KernelTyping.Proofs.Inference.Recorded — what holds of every recorded call

A property of a call and its recorded name that holds when the call is resolved, and stays when the
table grows (`Recording`), holds of all calls that an evaluation records (`Recording.evolution`) and
of all that a run of inference records (`Recording.steps`).
-/

namespace KernelTyping

open Evaluation

/-- All recorded calls have the property with their names. -/
def Renames.All (P : Table → Expr → String → Prop) (r : Renames) (t : Table) : Prop :=
  ∀ call name, r.get? call = some name → P t call name

namespace Renames.All

variable {P : Table → Expr → String → Prop} {r later : Renames} {t : Table}

theorem empty (t : Table) : Renames.empty.All P t := fun _ _ h => nomatch h

theorem insert (hr : r.All P t) {call : Expr} {name : String} (hname : P t call name) :
    (r.insert call name).All P t := by
  intro other found hfound
  rw [get?_insert] at hfound
  split at hfound
  case isTrue heq =>
    obtain rfl := Option.some.inj hfound
    exact heq ▸ hname
  case isFalse => exact hr other found hfound

theorem merge (hr : r.All P t) (hlater : later.All P t) (hproper : later.Proper) :
    (r.merge later).All P t := by
  intro call name hname
  rw [get?_merge hproper, Option.or_eq_some_iff] at hname
  rcases hname with hname | ⟨-, hname⟩
  · exact hlater call name hname
  · exact hr call name hname

end Renames.All

namespace Evaluation

/-- A property that a call has with its name from the time when it is resolved. -/
structure Recording (ctx : Context) (P : Table → Expr → String → Prop) : Prop where
  grows {call : Expr} {name : String} {t u : Table} : P t call name → t.Grows u → P u call name
  resolve {callee : Callee} {args : List Expr} {keywords : List (String × Expr)}
    {types : List (Option ElementType)} {t u : Table} {results : List ElementType}
    {name : String} : t.isEditing = true →
      resolution ctx callee args keywords types t = .ok (some (results, name), u) →
      P u (.call callee args keywords) name

namespace Recording

variable {ctx : Context} {P : Table → Expr → String → Prop}

/-- The types found so far take no part in a resolution. -/
theorem withEnv (h : Recording ctx P) (env : Env) : Recording { ctx with env } P :=
  ⟨h.grows, h.resolve⟩

/-- What is recorded keeps the property when the table grows. -/
theorem all_grows (h : Recording ctx P) {r : Renames} {t u : Table} (hr : r.All P t)
    (ht : t.Grows u) : r.All P u :=
  fun call name hname => h.grows (hr call name hname) ht

/-- An evaluation records only calls with the property. -/
theorem evolution (h : Recording ctx P) (hinfer : GrowsTable ctx.infer) :
    Evolution ctx fun s s' => s.Sound ∧ s.renames.All P s.table →
      s'.Sound ∧ s'.renames.All P s'.table where
  refl s hs := hs
  trans h h' hs := h' (h hs)
  note s name hs := ⟨⟨hs.1.editing, hs.1.proper, hs.1.entry⟩, hs.2⟩
  resolve {callee args keywords types s resolved table} hresolution hs := by
    obtain ⟨hsound, hall⟩ := hs
    obtain ⟨hgrows, hsound'⟩ := (evolution_grows hinfer).resolve hresolution hsound
    refine ⟨hsound', ?_⟩
    cases resolved with
    | none => exact h.all_grows hall hgrows
    | some resolved =>
      exact (h.all_grows hall hgrows).insert (h.resolve hsound.editing hresolution)

end Recording

end Evaluation

namespace Inference

/-- A run of inference records only calls with the property. -/
theorem Steps.all {ctx : Context} {P : Table → Expr → String → Prop} {members : List Member}
    {p q : Progress} (h : Steps ctx members p q) (hP : Recording ctx P)
    (hinfer : GrowsTable ctx.infer) (hp : p.Sound) (hall : p.renames.All P p.table) :
    q.renames.All P q.table := by
  have hrecord {q : Progress} {α : Type} {x : Eval (Option α)} {a : α} {s : State}
      (hq : q.Sound) (hgrows : q.table.Grows s.table)
      (hx : Evolves (fun s s' => s.Sound ∧ s.renames.All P s.table →
        s'.Sound ∧ s'.renames.All P s'.table) x)
      (hattempt : attempt x q.table = .ok (some a, s)) (hqs : q.renames.All P q.table) :
      (q.record s).renames.All P (q.record s).table := by
    obtain ⟨hsound, hs⟩ := hx (attempt_eq_some.1 hattempt) ⟨.start hq.editing, .empty q.table⟩
    exact (hP.all_grows hqs hgrows).merge hs hsound.proper
  induction h with
  | refl => exact hall
  | @assign q m type s hsteps hm hattempt ih =>
    obtain ⟨-, hq⟩ := hsteps.grows hinfer hp
    obtain ⟨hgrows, -⟩ := hq.attempt
      (evolution_writtenType { ctx with env := q.env } (evolution_grows hinfer) m) hattempt
    exact hrecord hq hgrows (evolution_writtenType { ctx with env := q.env }
      ((hP.withEnv q.env).evolution hinfer) m) hattempt ih
  | @resolve q i s hsteps hi hattempt ih =>
    obtain ⟨-, hq⟩ := hsteps.grows hinfer hp
    obtain ⟨hgrows, -⟩ := hq.attempt
      (evolution_visit { ctx with env := q.env } (evolution_grows hinfer) i) hattempt
    exact hrecord hq hgrows (evolution_visit { ctx with env := q.env }
      ((hP.withEnv q.env).evolution hinfer) i) hattempt ih

end Inference

end KernelTyping
