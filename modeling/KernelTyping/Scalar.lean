/-!
# KernelTyping.Scalar — the native scalar types and how they promote

A scalar has a kind (boolean, signed, unsigned, float, complex) and a width.  `Scalar.promote` is
the usual array-library table for the type of a mixed operation, with one deliberate exception:
`int32` with `float32` stays in single precision.  `Scalar.castsSafely` says which conversions
keep every value.
-/

namespace KernelTyping

/-- The native scalar types. -/
inductive Scalar where
  | bool
  | int8 | int16 | int32 | int64
  | uint8 | uint16 | uint32 | uint64
  | float32 | float64
  | complex64 | complex128
  deriving DecidableEq, Inhabited

namespace Scalar

/-- What a scalar type ranges over, its width aside. -/
inductive Kind where
  | boolean | signed | unsigned | float | complex
  deriving DecidableEq

def kind : Scalar → Kind
  | bool => .boolean
  | int8 | int16 | int32 | int64 => .signed
  | uint8 | uint16 | uint32 | uint64 => .unsigned
  | float32 | float64 => .float
  | complex64 | complex128 => .complex

/-- Width in bits; of one component for a complex type. -/
def width : Scalar → Nat
  | bool | int8 | uint8 => 8
  | int16 | uint16 => 16
  | int32 | uint32 | float32 | complex64 => 32
  | int64 | uint64 | float64 | complex128 => 64

/-- All scalar types, in the order of declaration. -/
def all : List Scalar :=
  [bool, int8, int16, int32, int64, uint8, uint16, uint32, uint64, float32, float64, complex64,
    complex128]

theorem mem_all (s : Scalar) : s ∈ all := by cases s <;> decide

def name : Scalar → String
  | bool => "bool"
  | int8 => "int8"
  | int16 => "int16"
  | int32 => "int32"
  | int64 => "int64"
  | uint8 => "uint8"
  | uint16 => "uint16"
  | uint32 => "uint32"
  | uint64 => "uint64"
  | float32 => "float32"
  | float64 => "float64"
  | complex64 => "complex64"
  | complex128 => "complex128"

instance : ToString Scalar := ⟨name⟩

/-- The scalar type of a given name. -/
def ofName? (s : String) : Option Scalar := all.find? (·.name == s)

/-! ### Kinds -/

/-- Integers of either signedness; booleans are not integral. -/
def isIntegral (s : Scalar) : Bool := s.kind = .signed || s.kind = .unsigned

def isFloat (s : Scalar) : Bool := s.kind = .float

def isComplex (s : Scalar) : Bool := s.kind = .complex

/-- The component type of a complex type; any other type is its own real part. -/
def realPart : Scalar → Scalar
  | complex64 => float32
  | complex128 => float64
  | s => s

/-! ### Promotion -/

/-- The signed type with twice the width of an unsigned one.  Nothing holds all of `uint64` and a
sign, so there the answer is a double. -/
def widenedSigned : Nat → Scalar
  | 8 => int16
  | 16 => int32
  | 32 => int64
  | _ => float64

/-- The narrowest float width that holds an integer type: there is no half precision, and from 32
bits on only a double is exact. -/
def floatWidth (s : Scalar) : Nat := if s.width ≤ 16 then 32 else 64

def floatOfWidth (w : Nat) : Scalar := if w ≤ 32 then float32 else float64

def complexOfWidth (w : Nat) : Scalar := if w ≤ 32 then complex64 else complex128

/-- The wider of two types of one kind. -/
def wider (a b : Scalar) : Scalar := if b.width ≤ a.width then a else b

/-- A signed type `s` with an unsigned type `u`: `s` if it is strictly wider, else the signed type
of twice the width of `u`. -/
def promoteSigns (s u : Scalar) : Scalar := if u.width < s.width then s else widenedSigned u.width

/-- Promotion by kind and width alone. -/
def promoteKinds (a b : Scalar) : Scalar :=
  match a.kind, b.kind with
  | .boolean, _ => b
  | _, .boolean => a
  | .signed, .unsigned => promoteSigns a b
  | .unsigned, .signed => promoteSigns b a
  | .signed, .signed | .unsigned, .unsigned | .float, .float | .complex, .complex => wider a b
  | .signed, .float | .unsigned, .float => floatOfWidth (max a.floatWidth b.width)
  | .float, .signed | .float, .unsigned => floatOfWidth (max b.floatWidth a.width)
  | .signed, .complex | .unsigned, .complex => complexOfWidth (max a.floatWidth b.width)
  | .complex, .signed | .complex, .unsigned => complexOfWidth (max b.floatWidth a.width)
  | .float, .complex | .complex, .float => complexOfWidth (max a.width b.width)

/-- The type of an operation on `a` and `b`.  Kinds and widths decide, except that `int32` with
`float32` is `float32` and not a double. -/
def promote (a b : Scalar) : Scalar :=
  match a, b with
  | int32, float32 | float32, int32 => float32
  | _, _ => if a = b then a else promoteKinds a b

theorem promote_self (a : Scalar) : promote a a = a := by cases a <;> rfl

theorem promote_comm (a b : Scalar) : promote a b = promote b a := by
  cases a <;> cases b <;> rfl

/-! ### Safe casts -/

/-- Every value of `a` is a value of `b`. -/
def castsSafely (a b : Scalar) : Bool :=
  a = b ||
    match a.kind, b.kind with
    | .boolean, _ => true
    | _, .boolean => false
    | .signed, .signed | .unsigned, .unsigned => a.width ≤ b.width
    | .unsigned, .signed => a.width < b.width
    | .signed, .unsigned => false
    | .signed, .float | .unsigned, .float | .signed, .complex | .unsigned, .complex =>
      a.floatWidth ≤ b.width
    | .float, .float | .float, .complex | .complex, .complex => a.width ≤ b.width
    | .float, _ | .complex, _ => false

theorem castsSafely_refl (a : Scalar) : castsSafely a a = true := by cases a <;> rfl

end Scalar

end KernelTyping
