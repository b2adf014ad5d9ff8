import KernelTyping.Proofs.Inference.Fuel
import KernelTyping.Proofs.Inference.Soundness
import KernelTyping.Proofs.Table.Transactions

/-!
# KernelTyping.Proofs.Inference.OtherEntries — entries that an expression does not refer to

The table from which an expression is evaluated may hold any number of specializations that were
made elsewhere.  They take names that the expression would have taken for its own, and they are
found in its place where they are equal.  They do not change what is known of its type, nor with
which fault its evaluation stops (`types_from_larger_table`).  What the expression refers to,
directly or through the kernels that it calls, must have an entry in the smaller table: a name that
has none there can have one in the larger table.
-/

namespace KernelTyping

open Evaluation

/-! ### Tables with more entries -/

namespace Table

variable {t u : Table} {e : Expr}

/-- Every entry of the first table is in the second one, unchanged. -/
def KeptIn (t u : Table) : Prop := ∀ name c, t.get? name = some c → u.get? name = some c

/-- The names that can be reached from an expression: those that it mentions, and in turn those that
their entries refer to. -/
inductive ReachedFrom (t : Table) (e : Expr) : String → Prop where
  | mentioned {name : String} : e.Mentions (.entry name) → ReachedFrom t e name
  | callee {name callee : String} {c : Callable} :
    ReachedFrom t e name → t.get? name = some c → callee ∈ c.callees → ReachedFrom t e callee

/-- Every name that can be reached from the expression has an entry. -/
def LinkedFor (t : Table) (e : Expr) : Prop := ∀ name, t.ReachedFrom e name → t.contains name = true

/-- A larger table has the same entries at the names that can be reached. -/
theorem LinkedFor.agree (h : t.LinkedFor e) (hkept : t.KeptIn u) : Agree (t.ReachedFrom e) t u := by
  intro name hname
  have hcontains : t.contains name = true := h name hname
  rw [contains_eq_isSome] at hcontains
  obtain ⟨c, hc⟩ := Option.isSome_iff_exists.1 hcontains
  exact ⟨c, hc, hkept name c hc, fun callee hcallee => hname.callee hc hcallee⟩

/-- Where no entry refers to a name without one, it is enough that those that the expression
mentions have one. -/
theorem linkedFor_of_closed (he : ∀ name, e.Mentions (.entry name) → t.contains name = true)
    (ht : ∀ name c, t.get? name = some c → ∀ callee ∈ c.callees, t.contains callee = true) :
    t.LinkedFor e := by
  intro name hname
  cases hname with
  | mentioned h => exact he name h
  | callee _ hc hcallee => exact ht _ _ hc _ hcallee

end Table

namespace Inference

/-! ### Evaluations that see the same entries -/

section Agree

variable {α : Type} {R : String → Prop} {x : Nat → Eval α} {s s' : State} {m n : Nat}

/-- An evaluation that finds the same from states that are alike, and the same with more fuel, finds
the same from either state with as much fuel as it needs there. -/
theorem exec_eq_of_alike (hsame : ∀ n, SameResults R _ (x n) (x n))
    (hanswered : ∀ {m n : Nat}, m ≤ n → Answered _ (x m) (x n)) (halike : s.Alike R s')
    (hm : (exec (x m) s).1 ≠ .error .exhausted) (hn : (exec (x n) s').1 ≠ .error .exhausted) :
    (exec (x n) s').1 = (exec (x m) s).1 := by
  have hsame (n : Nat) : (exec (x n) s).1 = (exec (x n) s').1 := (hsame n s s' halike).fst
  rcases Nat.le_total m n with hle | hle
  · have hmore : exec (x n) s = exec (x m) s := hanswered hle s hm
    rw [← hsame, hmore]
  · have hmore : exec (x m) s' = exec (x n) s' := hanswered hle s' hn
    rw [hsame, hmore]

end Agree

end Inference

open Inference

/-- What is found of the type of an expression from a table. -/
def typeFrom (target : Target) (fuel : Nat) (k : Kernel) (env : Env) (e : Expr) (t : Table) :
    Outcome (Option ElementType) :=
  (exec (eval ⟨target, k, env, inferKernel target fuel true⟩ e) (.start t)).1

/-- What is found of the types of the results of a call or of a reduction over pairs. -/
def resultsFrom (target : Target) (fuel : Nat) (k : Kernel) (env : Env) (e : Expr) (t : Table) :
    Outcome (Option (List ElementType)) :=
  (exec (evalTuple ⟨target, k, env, inferKernel target fuel true⟩ e) (.start t)).1

/-- **Specializations made elsewhere.**  Let a table hold every entry of another one and any others
besides, and let every name that can be reached from an expression have an entry in the smaller one.
Whenever the evaluation of the expression comes to an end from both, it finds the same type from
both, or nothing, or it stops with the same fault; the same holds of its evaluation to several
results. -/
theorem types_from_larger_table {target : Target} {k : Kernel} {env : Env} {e : Expr} {t u : Table}
    {fuel fuel' : Nat} (ht : t.isEditing = true) (hu : u.isEditing = true) (hkept : t.KeptIn u)
    (hlinked : t.LinkedFor e) :
    (typeFrom target fuel k env e t ≠ .error .exhausted →
      typeFrom target fuel' k env e u ≠ .error .exhausted →
      typeFrom target fuel' k env e u = typeFrom target fuel k env e t) ∧
    (resultsFrom target fuel k env e t ≠ .error .exhausted →
      resultsFrom target fuel' k env e u ≠ .error .exhausted →
      resultsFrom target fuel' k env e u = resultsFrom target fuel k env e t) := by
  let ctx (n : Nat) : Context := ⟨target, k, env, inferKernel target n true⟩
  have halike : (State.start t).Alike (t.ReachedFrom e) (.start u) :=
    alike_start (hlinked.agree hkept) ht hu
  have hcalls : CallsOnly (t.ReachedFrom e) e := fun name hname => .mentioned hname
  have hgrows (n : Nat) : GrowsTable (ctx n).infer := inferKernel_grows target n true
  have hsame (n : Nat) : SameTypes (t.ReachedFrom e) (ctx n).infer :=
    inferKernel_sameTypes target n true
  have hanswered {m n : Nat} (hle : m ≤ n) : (ctx m).infer.AnsweredBy (ctx n).infer :=
    answeredBy_inferKernel target hle true
  refine ⟨fun hends hends' => ?_, fun hends hends' => ?_⟩
  · exact exec_eq_of_alike (x := fun n => eval (ctx n) e)
      (fun n => sameResults_eval (hgrows n) (hsame n) hcalls)
      (fun hle => answered_eval _ (hanswered hle) e) halike hends hends'
  · exact exec_eq_of_alike (x := fun n => evalTuple (ctx n) e)
      (fun n => sameResults_evalTuple (hgrows n) (hsame n) hcalls)
      (fun hle => answered_evalTuple _ (hanswered hle) e) halike hends hends'

/-- A table in which the builtin is also recorded for another type, under the name that the first
specialization takes otherwise. -/
def crowdedTable : Table :=
  absTable.insert "abs_0" ⟨"abs", some (.ofLists [.scalar .int8] [.scalar .int8]), .builtin .abs⟩

/-- A kernel with the variable of `absCall`. -/
def callingKernel : Kernel := { Kernel.empty "k" with args := [⟨"x", .known .float32, .input⟩] }

theorem keptIn_crowdedTable : absTable.KeptIn crowdedTable := by
  intro name c hc
  have hne : "abs_0" ≠ name := by
    rintro rfl
    simp [get?_absTable] at hc
  rw [crowdedTable, Table.get?_insert, if_neg hne, hc]

theorem linkedFor_absTable : absTable.LinkedFor absCall := by
  refine Table.linkedFor_of_closed (fun name hname => ?_) fun name c hc callee hcallee => ?_
  · obtain ⟨d, hd, hcallee⟩ := hname
    rw [absCall, Expr.subterms_eq] at hd
    simp only [Expr.children, Expr.subterms_eq, List.map_nil, List.append_nil, List.flatMap_cons,
      List.flatMap_nil, List.mem_cons, List.not_mem_nil, or_false] at hd
    rcases hd with rfl | rfl
    · obtain rfl : "abs" = name := Callee.entry.inj (Option.some.inj hcallee)
      rw [Table.contains_eq_isSome, get?_absTable, if_pos rfl]
      rfl
    · cases hcallee
  · rw [callees_of_get?_absTable hc] at hcallee
    cases hcallee

theorem typeFrom_absTable :
    typeFrom .cLike 8 callingKernel ∅ absCall absTable = .ok (some .float32) := by cbv

theorem isOk_typeFrom_crowdedTable :
    (typeFrom .cLike 8 callingKernel ∅ absCall crowdedTable).isOk = true := by cbv

theorem types_from_larger_table_absCall :
    absTable.isEditing = true ∧ crowdedTable.isEditing = true ∧
      absTable.KeptIn crowdedTable ∧ absTable.LinkedFor absCall ∧
      typeFrom .cLike 8 callingKernel ∅ absCall absTable = .ok (some .float32) ∧
      typeFrom .cLike 8 callingKernel ∅ absCall crowdedTable = .ok (some .float32) := by
  have hfound := typeFrom_absTable
  refine ⟨rfl, rfl, keptIn_crowdedTable, linkedFor_absTable, hfound, ?_⟩
  rw [← hfound]
  refine (types_from_larger_table rfl rfl keptIn_crowdedTable linkedFor_absTable).1 ?_ ?_
  · rw [hfound]
    exact nofun
  · intro hexhausted
    have hends := isOk_typeFrom_crowdedTable
    rw [hexhausted] at hends
    cases hends

end KernelTyping
