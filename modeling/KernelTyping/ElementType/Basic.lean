import KernelTyping.Scalar

/-!
# KernelTyping.ElementType.Basic — the types of array elements

An element is a native scalar, a struct with ordered named fields (vector types are structs with
one field per lane), or a handle of the target whose layout is not known.  Two element types are
the same only if they are written alike, field names and all; `DecidableEq` decides that.
-/

namespace KernelTyping

/-- The type of an array element. -/
inductive ElementType where
  | scalar (s : Scalar)
  /-- A structured layout; the fields are ordered and a name may repeat. -/
  | struct (name : String) (fields : List (String × ElementType))
  /-- A type of the target with no known layout. -/
  | handle (name : String)
  deriving Inhabited

namespace ElementType

/-! ### Equality -/

mutual

/-- The test for equality of two types. -/
def same : ElementType → ElementType → Bool
  | scalar a, scalar b => a == b
  | struct m fs, struct n gs => m == n && sameFields fs gs
  | handle m, handle n => m == n
  | _, _ => false

/-- The test for equality of two field lists. -/
def sameFields : List (String × ElementType) → List (String × ElementType) → Bool
  | [], [] => true
  | (m, a) :: fs, (n, b) :: gs => m == n && same a b && sameFields fs gs
  | _, _ => false

end

mutual

theorem same_self : ∀ a : ElementType, same a a = true
  | scalar _ => by simp [same]
  | struct _ fs => by simp [same, sameFields_self fs]
  | handle _ => by simp [same]

theorem sameFields_self : ∀ fs : List (String × ElementType), sameFields fs fs = true
  | [] => rfl
  | (_, a) :: fs => by simp [sameFields, same_self a, sameFields_self fs]

end

mutual

theorem eq_of_same : ∀ a b : ElementType, same a b = true → a = b
  | scalar _, b => by cases b <;> simp [same]
  | handle _, b => by cases b <;> simp [same]
  | struct m fs, b => by
    cases b with
    | struct n gs =>
      simp only [same, Bool.and_eq_true, beq_iff_eq]
      rintro ⟨rfl, h⟩
      rw [eq_of_sameFields fs gs h]
    | scalar _ | handle _ => simp [same]

theorem eq_of_sameFields : ∀ fs gs : List (String × ElementType), sameFields fs gs = true → fs = gs
  | [], gs => by cases gs <;> simp [sameFields]
  | (m, a) :: fs, gs => by
    cases gs with
    | nil => simp [sameFields]
    | cons g gs =>
      obtain ⟨n, b⟩ := g
      simp only [sameFields, Bool.and_eq_true, beq_iff_eq]
      rintro ⟨⟨rfl, hab⟩, h⟩
      rw [eq_of_same a b hab, eq_of_sameFields fs gs h]

end

theorem same_iff_eq {a b : ElementType} : same a b = true ↔ a = b :=
  ⟨eq_of_same a b, fun h => h ▸ same_self a⟩

instance : DecidableEq ElementType := fun _ _ => decidable_of_iff _ same_iff_eq

/-! ### Text -/

/-- A struct is written by its name alone. -/
def text : ElementType → String
  | scalar s => s.name
  | struct name _ => name
  | handle name => "opaque " ++ name

instance : ToString ElementType := ⟨text⟩

/-! ### Parts -/

def toScalar? : ElementType → Option Scalar
  | scalar s => some s
  | struct _ _ | handle _ => none

/-- Integers of either signedness; booleans are not integral. -/
def isIntegral (t : ElementType) : Bool := t.toScalar?.any Scalar.isIntegral

/-- What arithmetic can be done on: every scalar except the boolean. -/
def isNumeric (t : ElementType) : Bool := t.toScalar?.any (· ≠ .bool)

def isComplex (t : ElementType) : Bool := t.toScalar?.any Scalar.isComplex

def isFloat (t : ElementType) : Bool := t.toScalar?.any Scalar.isFloat

def isHandle : ElementType → Bool
  | handle _ => true
  | scalar _ | struct _ _ => false

def hasFields : ElementType → Bool
  | struct _ _ => true
  | scalar _ | handle _ => false

/-- The type of the first field of that name. -/
def field? (t : ElementType) (name : String) : Option ElementType :=
  match t with
  | struct _ fields => (fields.find? (·.1 == name)).map (·.2)
  | scalar _ | handle _ => none

/-! ### Vectors -/

/-- Lanes are `x`, `y`, `z`, `w`, and `s4`, `s5`, … from the fifth on. -/
def laneName : Nat → String
  | 0 => "x"
  | 1 => "y"
  | 2 => "z"
  | 3 => "w"
  | i => s!"s{i}"

/-- The struct of `lanes` fields of type `base`. -/
def vector (base : Scalar) (lanes : Nat) : ElementType :=
  struct s!"{base}{lanes}" ((List.range lanes).map fun i => (laneName i, scalar base))

/-! ### The types with a role of their own -/

def int32 : ElementType := scalar .int32

def int64 : ElementType := scalar .int64

def float32 : ElementType := scalar .float32

def float64 : ElementType := scalar .float64

def complex64 : ElementType := scalar .complex64

/-- The type of comparisons and logical operators: a native boolean has no layout that all targets
agree on. -/
def truth : ElementType := int32

end ElementType

end KernelTyping
