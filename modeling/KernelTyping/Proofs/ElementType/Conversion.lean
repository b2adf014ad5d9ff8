import KernelTyping.ElementType.Promotion
import KernelTyping.Proofs.Outcome

/-!
# KernelTyping.Proofs.ElementType.Conversion — operands convert to the type they are combined to

A type converts to another by a cast that keeps every value, from a scalar to each field of a
struct, or from a 32-bit integer to single precision, where promotion makes an exception
(`ElementType.Converts`).  Every operand converts to the type of a mixed operation, however many
there are and in whichever order they are promoted (`converts_combine`).
-/

namespace KernelTyping

namespace Scalar

/-- A cast that keeps every value, or the one to single precision that promotion allows. -/
def converts (a b : Scalar) : Bool :=
  a.castsSafely b || (a = int32 && (b = float32 || b = complex64))

theorem converts_refl (a : Scalar) : a.converts a = true := by
  rw [converts, castsSafely_refl, Bool.true_or]

theorem converts_promote {x a : Scalar} (h : x.converts a = true) (b : Scalar) :
    x.converts (a.promote b) = true := by
  revert h
  cases x <;> cases a <;> cases b <;> decide

theorem converts_promote_right (a b : Scalar) : b.converts (a.promote b) = true := by
  rw [promote_comm]
  exact converts_promote b.converts_refl a

end Scalar

namespace ElementType

/-- How a value of type `a` becomes one of type `b`. -/
def Converts (a b : ElementType) : Prop :=
  a.castsSafely b = true ∨ (a.toScalar?.isSome = true ∧ b.hasFields = true) ∨
    (a = int32 ∧ (b = float32 ∨ b = complex64))

instance (a b : ElementType) : Decidable (a.Converts b) := inferInstanceAs (Decidable (_ ∨ _))

theorem converts_scalar {a b : Scalar} :
    (scalar a).Converts (scalar b) ↔ a.converts b = true := by
  simp [Converts, Scalar.converts, castsSafely, toScalar?, hasFields, int32, float32, complex64]

theorem Converts.refl (a : ElementType) : a.Converts a := by
  cases a with
  | scalar s => exact .inl (Scalar.castsSafely_refl s)
  | struct _ _ | handle _ => exact .inl (by simp [castsSafely])

/-- Only scalars convert to a scalar. -/
theorem Converts.exists_scalar {a : ElementType} {b : Scalar} (h : a.Converts (scalar b)) :
    ∃ s, a = scalar s := by
  cases a with
  | scalar s => exact ⟨s, rfl⟩
  | struct _ _ | handle _ =>
    simp [Converts, castsSafely, toScalar?, hasFields, int32] at h

/-- What promotion does: scalars among themselves, a struct takes over, and all else stays. -/
theorem promote_cases {a b c : ElementType} (h : a.promote b = .ok c) :
    (∃ x y, a = scalar x ∧ b = scalar y ∧ c = scalar (x.promote y)) ∨
      ((∃ x, a = scalar x) ∧ b.hasFields = true ∧ c = b) ∨
      ((∃ y, b = scalar y) ∧ c = a ∧ a.hasFields = true) ∨ (a = b ∧ c = a) := by
  unfold promote at h
  split at h
  case h_1 x y => exact .inl ⟨x, y, rfl, rfl, (Except.ok.inj h).symm⟩
  case h_2 x _ _ => exact .inr (.inl ⟨⟨x, rfl⟩, rfl, (Except.ok.inj h).symm⟩)
  case h_3 _ _ y => exact .inr (.inr (.inl ⟨⟨y, rfl⟩, (Except.ok.inj h).symm, rfl⟩))
  case h_4 =>
    split at h
    case isTrue heq => exact .inr (.inr (.inr ⟨heq, (Except.ok.inj h).symm⟩))
    case isFalse => cases h

/-- What converts to the first operand converts to the promoted type. -/
theorem Converts.promote {x a b c : ElementType} (h : x.Converts a) (hc : a.promote b = .ok c) :
    x.Converts c := by
  rcases promote_cases hc with ⟨s, t, rfl, rfl, rfl⟩ | ⟨⟨s, rfl⟩, hb, rfl⟩ | ⟨-, rfl, -⟩ | ⟨-, rfl⟩
  · obtain ⟨y, rfl⟩ := h.exists_scalar
    exact converts_scalar.2 (Scalar.converts_promote (converts_scalar.1 h) t)
  · obtain ⟨y, rfl⟩ := h.exists_scalar
    exact .inr (.inl ⟨rfl, hb⟩)
  · exact h
  · exact h

theorem converts_promote_right {a b c : ElementType} (hc : a.promote b = .ok c) : b.Converts c := by
  rcases promote_cases hc with
    ⟨s, t, rfl, rfl, rfl⟩ | ⟨-, -, rfl⟩ | ⟨⟨t, rfl⟩, rfl, ha⟩ | ⟨rfl, rfl⟩
  · exact converts_scalar.2 (Scalar.converts_promote_right s t)
  · exact .refl c
  · exact .inr (.inl ⟨rfl, ha⟩)
  · exact .refl c

/-- Several operands promoted from left to right: the first and all others convert. -/
theorem converts_foldlM {first type : ElementType} {rest : List ElementType}
    (h : rest.foldlM promote first = .ok type) :
    (∀ x : ElementType, x.Converts first → x.Converts type) ∧ ∀ x ∈ rest, x.Converts type := by
  induction rest generalizing first with
  | nil =>
    obtain rfl := Except.ok.inj h
    exact ⟨fun _ hx => hx, fun _ hx => nomatch hx⟩
  | cons second rest ih =>
    rw [List.foldlM_cons] at h
    obtain ⟨acc, hacc, h⟩ := bind_eq_ok.1 h
    obtain ⟨hfirst, hrest⟩ := ih h
    refine ⟨fun x hx => hfirst x (hx.promote hacc), fun x hx => ?_⟩
    rcases List.mem_cons.1 hx with rfl | hx
    · exact hfirst x (converts_promote_right hacc)
    · exact hrest x hx

/-- **Every known operand converts to the combined type.** -/
theorem converts_combine {operands : List (Option ElementType)} {type : ElementType}
    (h : combine operands = .ok (some type)) {x : ElementType} (hx : some x ∈ operands) :
    x.Converts type := by
  have hknown : x ∈ operands.filterMap id := List.mem_filterMap.2 ⟨some x, hx, rfl⟩
  unfold combine at h
  split at h
  case h_1 hnone =>
    rw [hnone] at hknown
    cases hknown
  case h_2 first rest heq =>
    rw [heq] at hknown
    split at h
    case isTrue =>
      split at h
      case isTrue hsame =>
        obtain rfl := Option.some.inj (Except.ok.inj h)
        rcases List.mem_cons.1 hknown with rfl | hrest
        · exact .refl x
        · have heq : x = first := by simpa using List.all_eq_true.1 hsame x hrest
          exact heq ▸ .refl x
      case isFalse => cases h
    case isFalse =>
      cases hfold : rest.foldlM promote first with
      | error f =>
        rw [hfold] at h
        cases h
      | ok folded =>
        rw [hfold] at h
        obtain rfl := Option.some.inj (Except.ok.inj h)
        obtain ⟨hfirst, hrest⟩ := converts_foldlM hfold
        rcases List.mem_cons.1 hknown with rfl | hmem
        · exact hfirst x (.refl x)
        · exact hrest x hmem

end ElementType

end KernelTyping
