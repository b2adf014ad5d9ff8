import KernelTyping.Outcome
import Mathlib.Data.List.Forall2

/-!
# KernelTyping.Proofs.Outcome — taking outcomes apart

Outcomes in sequence, and what cannot run out of fuel as an outcome.
-/

namespace KernelTyping

variable {ε α β : Type}

@[simp] theorem ok_bind (a : α) (f : α → Except ε β) : (Except.ok a >>= f) = f a := rfl

@[simp] theorem error_bind (e : ε) (f : α → Except ε β) :
    ((Except.error e : Except ε α) >>= f) = .error e := rfl

theorem bind_eq_ok {x : Except ε α} {f : α → Except ε β} {b : β} :
    x >>= f = .ok b ↔ ∃ a, x = .ok a ∧ f a = .ok b := by
  cases x with
  | ok a => simp
  | error e => simp

theorem bind_eq_error {x : Except ε α} {f : α → Except ε β} {e : ε} :
    x >>= f = .error e ↔ x = .error e ∨ ∃ a, x = .ok a ∧ f a = .error e := by
  cases x with
  | ok a => simp
  | error e => simp

theorem map_eq_ok {x : Except ε α} {f : α → β} {b : β} :
    x.map f = .ok b ↔ ∃ a, x = .ok a ∧ f a = b := by
  cases x with
  | ok a => simp [Except.map]
  | error e => simp [Except.map]

theorem mapM_eq_ok {f : α → Except ε β} {xs : List α} {ys : List β} :
    xs.mapM f = .ok ys ↔ List.Forall₂ (fun x y => f x = .ok y) xs ys := by
  induction xs generalizing ys with
  | nil =>
    rw [List.mapM_nil, List.forall₂_nil_left_iff]
    exact ⟨fun h => (Except.ok.inj h).symm, fun h => h ▸ rfl⟩
  | cons x xs ih =>
    rw [List.mapM_cons, List.forall₂_cons_left_iff]
    constructor
    · intro h
      obtain ⟨y, hy, h⟩ := bind_eq_ok.1 h
      obtain ⟨ys', hys, h⟩ := bind_eq_ok.1 h
      obtain rfl := Except.ok.inj h
      exact ⟨y, ys', hy, ih.1 hys, rfl⟩
    · rintro ⟨y, ys', hy, hys, rfl⟩
      rw [hy, ok_bind, ih.2 hys, ok_bind]
      rfl

theorem exists_of_mapM_eq_error {f : α → Except ε β} {xs : List α} {e : ε}
    (h : xs.mapM f = .error e) : ∃ x ∈ xs, f x = .error e := by
  induction xs with
  | nil => cases h
  | cons x xs ih =>
    rw [List.mapM_cons] at h
    rcases bind_eq_error.1 h with h | ⟨_, _, h⟩
    · exact ⟨x, List.mem_cons_self, h⟩
    · rcases bind_eq_error.1 h with h | ⟨_, _, h⟩
      · obtain ⟨y, hy, h⟩ := ih h
        exact ⟨y, List.mem_cons_of_mem _ hy, h⟩
      · cases h

/-- Loops whose rounds do the same. -/
theorem foldlM_congr {f g : β → α → Except ε β} {xs : List α}
    (h : ∀ x ∈ xs, ∀ b, f b x = g b x) (b : β) : xs.foldlM f b = xs.foldlM g b := by
  induction xs generalizing b with
  | nil => rfl
  | cons x xs ih =>
    rw [List.foldlM_cons, List.foldlM_cons, h x (by simp)]
    exact bind_congr fun b => ih (fun y hy => h y (by simp [hy])) b

/-- A loop over a list that succeeds, at one of its rounds. -/
theorem foldlM_append_cons_eq_ok {f : β → α → Except ε β} {xs ys : List α} {x : α} {a b : β} :
    (xs ++ x :: ys).foldlM f a = .ok b ↔
      ∃ c d, xs.foldlM f a = .ok c ∧ f c x = .ok d ∧ ys.foldlM f d = .ok b := by
  rw [List.foldlM_append]
  constructor
  · intro h
    obtain ⟨c, hc, h⟩ := bind_eq_ok.1 h
    rw [List.foldlM_cons] at h
    obtain ⟨d, hd, h⟩ := bind_eq_ok.1 h
    exact ⟨c, d, hc, hd, h⟩
  · rintro ⟨c, d, hc, hd, h⟩
    rw [hc, ok_bind, List.foldlM_cons, hd, ok_bind, h]

namespace Outcome

@[simp] theorem lift_ok (a : α) : (liftM (Except.ok a : Except Fault α) : Outcome α) = .ok a := rfl

@[simp] theorem lift_error (f : Fault) :
    (liftM (Except.error f : Except Fault α) : Outcome α) = .error (.fault f) := rfl

theorem lift_eq_ok {x : Except Fault α} {a : α} : (liftM x : Outcome α) = .ok a ↔ x = .ok a := by
  cases x <;> simp

end Outcome

end KernelTyping
