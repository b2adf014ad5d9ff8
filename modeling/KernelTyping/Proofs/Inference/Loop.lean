import KernelTyping.Inference.Component
import KernelTyping.Proofs.Outcome
import Mathlib.Order.Preorder.Finite

/-!
# KernelTyping.Proofs.Inference.Loop — the loop of a component, one turn after the other

`settle` makes a number of turns (`run_succ`), each of which takes one member from the queue or
starts another pass.  It runs out of fuel if there are more turns than that
(`run_eq_exhausted_iff`).
A loop that comes back to where it was goes on for ever, and one that stays among finitely many
states and goes on for ever comes back (`exhausts_iff_recurs`).
-/

namespace KernelTyping.Inference

open Evaluation

/-- Where the loop of a component stands. -/
structure Loop where
  queue : List Member
  failed : NameSet
  changed : Bool
  progress : Progress

namespace Loop

/-- Before the first turn. -/
def start (members : List Member) (p : Progress) : Loop := ⟨members, ∅, false, p⟩

variable (ctx : Context) (members : List Member) (onePass complete : Bool)

/-- One turn of the loop, which goes on with another one or ends. -/
def turn (l : Loop) : Outcome (Loop ⊕ Progress) :=
  match l.queue with
  | [] =>
    if l.changed && !onePass then .ok (.inl { l with queue := members, changed := false })
    else .ok (.inr l.progress)
  | m :: queue => do
    let (found, s) ← attempt (writtenType { ctx with env := l.progress.env } m) l.progress.table
    match found with
    | some type =>
      let p := l.progress.record s
      if p.env[m.name]? = some type then return .inl { l with queue, progress := p }
      else return .inl ⟨queue, ∅, true, { p with env := p.env.insert m.name type }⟩
    | none =>
      if l.failed.contains m.name then
        if complete then
          throw (.fault (.undetermined m.name s.unknown.toList ctx.kernel.name))
        else return .inr l.progress
      else return .inl { l with queue := queue ++ [m], failed := l.failed.insert m.name }

/-- The loop after a number of turns, if it goes on for as long. -/
def after : Nat → Loop → Option Loop
  | 0, l => some l
  | n + 1, l =>
    match turn ctx members onePass complete l with
    | .ok (.inl next) => after n next
    | .ok (.inr _) | .error _ => none

/-- The rest of the loop. -/
def run (fuel : Nat) (l : Loop) : Outcome Progress :=
  settle ctx members onePass complete fuel l.queue l.failed l.changed l.progress

/-- The loop comes back to a state in which it was before. -/
def Recurs (l : Loop) : Prop :=
  ∃ i j r, i < j ∧ after ctx members onePass complete i l = some r ∧
    after ctx members onePass complete j l = some r

variable {ctx members onePass complete} {l : Loop} {fuel : Nat}

/-- To run the loop is to make a turn and to run the rest. -/
theorem run_succ : run ctx members onePass complete (fuel + 1) l =
    turn ctx members onePass complete l >>= fun
      | .inl next => run ctx members onePass complete fuel next
      | .inr p => .ok p := by
  obtain ⟨queue, failed, changed, p⟩ := l
  unfold run turn
  cases queue with
  | nil =>
    rw [settle]
    split <;> rfl
  | cons m queue =>
    rw [settle, bind_assoc]
    refine bind_congr fun ⟨found, s⟩ => ?_
    cases found with
    | some type =>
      dsimp only
      split <;> rfl
    | none =>
      dsimp only
      split
      · split <;> rfl
      · rfl

/-! ### Fuel -/

/-- Where every turn comes to an end, fuel runs out exactly if there are more turns. -/
theorem run_eq_exhausted_iff (hends : ∀ n r, after ctx members onePass complete n l = some r →
      turn ctx members onePass complete r ≠ .error .exhausted) :
    run ctx members onePass complete fuel l = .error .exhausted ↔
      (after ctx members onePass complete fuel l).isSome = true := by
  induction fuel generalizing l with
  | zero => exact iff_of_true rfl rfl
  | succ fuel ih =>
    rw [run_succ, after]
    cases hturn : turn ctx members onePass complete l with
    | error e =>
      exact iff_of_false (fun h => hends 0 l rfl (by rw [hturn, Except.error.inj h])) nofun
    | ok next =>
      cases next with
      | inl next =>
        refine ih fun n r hr => hends (n + 1) r ?_
        rw [after, hturn]
        exact hr
      | inr p => exact iff_of_false nofun nofun

/-! ### Coming back -/

theorem after_add (m n : Nat) : after ctx members onePass complete (m + n) l =
    (after ctx members onePass complete m l).bind (after ctx members onePass complete n) := by
  induction m generalizing l with
  | zero => rw [Nat.zero_add, after, Option.bind_some]
  | succ m ih =>
    rw [Nat.add_right_comm, after, after]
    cases turn ctx members onePass complete l with
    | error e => rfl
    | ok next =>
      cases next with
      | inl next => exact ih
      | inr p => rfl

theorem isSome_after_of_le {m n : Nat} (hle : m ≤ n)
    (h : (after ctx members onePass complete n l).isSome = true) :
    (after ctx members onePass complete m l).isSome = true := by
  rw [← Nat.add_sub_cancel' hle, after_add] at h
  exact Option.isSome_of_isSome_bind h

/-- A loop that comes back to where it was goes on for ever. -/
theorem Recurs.isSome_after (h : Recurs ctx members onePass complete l) (n : Nat) :
    (after ctx members onePass complete n l).isSome = true := by
  obtain ⟨i, j, r, hij, hi, hj⟩ := h
  have hcycle : after ctx members onePass complete (j - i) r = some r := by
    rw [← Nat.add_sub_cancel' hij.le, after_add, hi] at hj
    exact hj
  have hcycles (k : Nat) : after ctx members onePass complete (k * (j - i)) r = some r := by
    induction k with
    | zero => rw [Nat.zero_mul, after]
    | succ k ih => rw [Nat.succ_mul, after_add, ih, Option.bind_some, hcycle]
  refine isSome_after_of_le (n := i + n * (j - i)) ?_ ?_
  · exact (Nat.le_mul_of_pos_right n (Nat.sub_pos_of_lt hij)).trans (Nat.le_add_left _ _)
  · rw [after_add, hi, Option.bind_some, hcycles]
    rfl

/-- A loop whose turns come to an end and that stays among finitely many states runs out of any fuel
exactly if it comes back to where it was. -/
theorem exhausts_iff_recurs {S : Set Loop} (hfinite : S.Finite)
    (hends : ∀ r ∈ S, turn ctx members onePass complete r ≠ .error .exhausted)
    (hstays : ∀ n r, after ctx members onePass complete n l = some r → r ∈ S) :
    (∀ fuel, run ctx members onePass complete fuel l = .error .exhausted) ↔
      Recurs ctx members onePass complete l := by
  simp only [run_eq_exhausted_iff fun n r hr => hends r (hstays n r hr)]
  refine ⟨fun h => ?_, Recurs.isSome_after⟩
  have hget (n : Nat) : after ctx members onePass complete n l =
      some ((after ctx members onePass complete n l).get (h n)) := by simp
  obtain ⟨i, j, hij, heq⟩ := Set.Finite.exists_lt_map_eq_of_forall_mem
    (fun n => hstays n _ (hget n)) hfinite
  exact ⟨i, j, _, hij, hget i, heq ▸ hget j⟩

end Loop

/-! ### Components -/

/-- A component is settled in one pass if it is a lone variable that does not depend on itself. -/
def needsOnePass (d : Dependencies) (names : List String) : Bool :=
  match names with
  | [name] => !d.onItself name
  | _ => false

theorem settleComponent_eq (ctx : Context) (d : Dependencies) (complete : Bool) (fuel : Nat)
    (p : Progress) (names : List String) :
    settleComponent ctx d complete fuel p names =
      settle ctx (names.map (.ofName ctx.kernel)) (needsOnePass d names) complete fuel
        (names.map (.ofName ctx.kernel)) ∅ false p := rfl

end KernelTyping.Inference
