import KernelTyping.Fault

/-!
# KernelTyping.ElementType.Promotion — the type of a mixed operation

* `promote`: scalars promote among themselves, a struct takes over from any scalar, and all else
  combines only with itself.
* `combine`: the types of several operands, some of them not known.  The known ones are promoted
  from left to right; handles combine only if all known types are the same.
* `castsSafely`: which conversions keep every value.
-/

namespace KernelTyping.ElementType

/-- The type of an operation on two operands. -/
def promote (a b : ElementType) : Except Fault ElementType :=
  match a, b with
  | scalar x, scalar y => .ok (scalar (x.promote y))
  | scalar _, struct _ _ => .ok b
  | struct _ _, scalar _ => .ok a
  | _, _ => if a = b then .ok a else .error (.unrelatedTypes a b)

theorem promote_self (a : ElementType) : promote a a = .ok a := by
  cases a <;> simp [promote, Scalar.promote_self]

/-- The type of an operation on several operands: none if none is known. -/
def combine (operands : List (Option ElementType)) : Except Fault (Option ElementType) :=
  match operands.filterMap id with
  | [] => .ok none
  | first :: rest =>
    if (first :: rest).any isHandle then
      if rest.all (· = first) then .ok (some first) else .error (.handleMixed (first :: rest))
    else
      (rest.foldlM promote first).map some

@[simp] theorem combine_nil : combine [] = .ok none := rfl

theorem combine_singleton (t : Option ElementType) : combine [t] = .ok t := by
  cases t with
  | none => rfl
  | some t =>
    by_cases h : t.isHandle
    · simp [combine, h]
    · simp [combine, h]
      rfl

/-- Every value of `a` is a value of `b`; what is not a scalar is cast to itself only. -/
def castsSafely (a b : ElementType) : Bool :=
  match a, b with
  | scalar x, scalar y => x.castsSafely y
  | _, _ => a = b

end KernelTyping.ElementType
