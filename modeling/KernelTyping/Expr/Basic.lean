import KernelTyping.ElementType.Basic
import KernelTyping.Double.Basic

/-!
# KernelTyping.Expr.Basic — the expressions of a kernel

Expressions are plain trees.  Operators are grouped by the number of their operands.  A call names
either an entry of the table of callables or, bare, something only the target or a substitution
rule can make sense of.  Call nodes serve as keys, so equality is decidable; constants are equal if
their bits and their size tag are.
-/

namespace KernelTyping

/-! ### Leaves and operators -/

/-- A literal; `size` is the scalar type it is tagged with, if any. -/
inductive Constant where
  | int (value : Int) (size : Option Scalar)
  | float (value : Double) (size : Option Scalar)
  | complex (re im : Double) (size : Option Scalar)
  deriving DecidableEq

/-- The value of an integer literal. -/
def Constant.toInt? : Constant → Option Int
  | .int value _ => some value
  | .float _ _ | .complex _ _ _ => none

/-- An index of the executing hardware: of the work group along an axis, or inside the group. -/
inductive HardwareIndex where
  | group (axis : Nat)
  | inGroup (axis : Nat)
  deriving DecidableEq

/-- Operators on a list of operands. -/
inductive NaryOp where
  | sum | product
  | bitAnd | bitOr | bitXor
  | and | or
  | min | max
  deriving DecidableEq

inductive CompareOp where
  | eq | ne | lt | le | gt | ge
  deriving DecidableEq

/-- Operators on two operands. -/
inductive BinaryOp where
  | quotient | floorDiv | remainder | power
  | shiftLeft | shiftRight
  | compare (op : CompareOp)
  deriving DecidableEq

/-- What a reduction folds with.  The operators from `argmax` on fold over pairs. -/
inductive ReductionOp where
  | sum | product | max | min
  | argmax | argmin
  | segmentedSum | segmentedProduct
  deriving DecidableEq

namespace ReductionOp

/-- How many values are folded over at once. -/
def arity : ReductionOp → Nat
  | sum | product | max | min => 1
  | argmax | argmin | segmentedSum | segmentedProduct => 2

/-- The reduction has several results. -/
def isTuple (op : ReductionOp) : Bool := 1 < op.arity

def name : ReductionOp → String
  | sum => "sum"
  | product => "product"
  | max => "max"
  | min => "min"
  | argmax => "argmax"
  | argmin => "argmin"
  | segmentedSum => "segmented(sum)"
  | segmentedProduct => "segmented(product)"

instance : ToString ReductionOp := ⟨name⟩

end ReductionOp

/-- What a call refers to. -/
inductive Callee where
  /-- The entry of that name in the table of callables. -/
  | entry (name : String)
  /-- A bare name, which the target matches or a substitution rule defines. -/
  | bare (name : String)
  deriving DecidableEq

def Callee.name : Callee → String
  | entry name | bare name => name

/-! ### Expressions -/

/-- An expression of a kernel. -/
inductive Expr where
  | constant (value : Constant)
  | var (name : String)
  | hardware (index : HardwareIndex)
  | nary (op : NaryOp) (operands : List Expr)
  | binary (op : BinaryOp) (left right : Expr)
  | not (operand : Expr)
  | ite (condition onTrue onFalse : Expr)
  | subscript (aggregate : Expr) (indices : List Expr)
  | linearSubscript (aggregate index : Expr)
  | lookup (aggregate : Expr) (field : String)
  | cast (type : ElementType) (operand : Expr)
  | call (callee : Callee) (args : List Expr) (keywords : List (String × Expr))
  /-- A reduction of one expression over the index names `inames`. -/
  | reduction (op : ReductionOp) (inames : List String) (body : Expr)
  /-- A reduction of several expressions at once. -/
  | tupleReduction (op : ReductionOp) (inames : List String) (bodies : List Expr)
  /-- The part of an array that `subscript` runs through as the index names `inames` sweep. -/
  | view (inames : List String) (subscript : Expr)

namespace Expr

/-- An integer literal without a size. -/
def int (value : Int) : Expr := constant (.int value none)

instance : Inhabited Expr := ⟨int 0⟩

def isCall : Expr → Bool
  | call _ _ _ => true
  | _ => false

/-! ### Size -/

mutual

/-- The number of nodes. -/
def size : Expr → Nat
  | constant _ | var _ | hardware _ => 1
  | nary _ es => 1 + sizeList es
  | binary _ l r => 1 + (size l + size r)
  | not e => 1 + size e
  | ite c t f => 1 + (size c + (size t + size f))
  | subscript a is => 1 + (size a + sizeList is)
  | linearSubscript a i => 1 + (size a + size i)
  | lookup a _ => 1 + size a
  | cast _ e => 1 + size e
  | call _ es kws => 1 + (sizeList es + sizeNamed kws)
  | reduction _ _ e => 1 + size e
  | tupleReduction _ _ es => 1 + sizeList es
  | view _ e => 1 + size e

/-- The number of nodes of a list. -/
def sizeList : List Expr → Nat
  | [] => 0
  | e :: es => size e + sizeList es

/-- The number of nodes of a list of named expressions. -/
def sizeNamed : List (String × Expr) → Nat
  | [] => 0
  | (_, e) :: kws => size e + sizeNamed kws

end

theorem sizeList_append (es fs : List Expr) :
    sizeList (es ++ fs) = sizeList es + sizeList fs := by
  induction es with
  | nil => simp [sizeList]
  | cons e es ih => simp [sizeList, ih]; omega

theorem sizeNamed_eq (kws : List (String × Expr)) :
    sizeNamed kws = sizeList (kws.map (·.2)) := by
  induction kws with
  | nil => rfl
  | cons kw kws ih => simp [sizeNamed, sizeList, ih]

theorem size_le_sizeList {e : Expr} {es : List Expr} (h : e ∈ es) : size e ≤ sizeList es := by
  induction es with
  | nil => cases h
  | cons e' es ih =>
    simp only [sizeList]
    rcases List.mem_cons.1 h with rfl | h
    · omega
    · have := ih h
      omega

/-! ### Equality -/

mutual

/-- The test for equality of two expressions. -/
def same : Expr → Expr → Bool
  | constant a, constant b => a == b
  | var a, var b => a == b
  | hardware a, hardware b => a == b
  | nary op es, nary op' fs => op == op' && sameList es fs
  | binary op a b, binary op' c d => op == op' && same a c && same b d
  | not a, not b => same a b
  | ite a b c, ite d e f => same a d && same b e && same c f
  | subscript a is, subscript b js => same a b && sameList is js
  | linearSubscript a i, linearSubscript b j => same a b && same i j
  | lookup a m, lookup b n => m == n && same a b
  | cast t a, cast u b => t == u && same a b
  | call f es kws, call g fs lws => f == g && sameList es fs && sameNamed kws lws
  | reduction op is a, reduction op' js b => op == op' && is == js && same a b
  | tupleReduction op is es, tupleReduction op' js fs => op == op' && is == js && sameList es fs
  | view is a, view js b => is == js && same a b
  | _, _ => false

/-- The test for equality of two lists. -/
def sameList : List Expr → List Expr → Bool
  | [], [] => true
  | e :: es, f :: fs => same e f && sameList es fs
  | _, _ => false

/-- The test for equality of two lists of named expressions. -/
def sameNamed : List (String × Expr) → List (String × Expr) → Bool
  | [], [] => true
  | (k, e) :: kws, (l, f) :: lws => k == l && same e f && sameNamed kws lws
  | _, _ => false

end

mutual

theorem same_self : ∀ e : Expr, same e e = true
  | constant _ | var _ | hardware _ => by simp [same]
  | nary _ es | tupleReduction _ _ es => by simp [same, sameList_self es]
  | binary _ l r | linearSubscript l r => by simp [same, same_self l, same_self r]
  | not e | lookup e _ | cast _ e | reduction _ _ e | view _ e => by simp [same, same_self e]
  | ite c t f => by simp [same, same_self c, same_self t, same_self f]
  | subscript a is => by simp [same, same_self a, sameList_self is]
  | call _ es kws => by simp [same, sameList_self es, sameNamed_self kws]

theorem sameList_self : ∀ es : List Expr, sameList es es = true
  | [] => rfl
  | e :: es => by simp [sameList, same_self e, sameList_self es]

theorem sameNamed_self : ∀ kws : List (String × Expr), sameNamed kws kws = true
  | [] => rfl
  | (_, e) :: kws => by simp [sameNamed, same_self e, sameNamed_self kws]

end

mutual

theorem eq_of_same : ∀ e f : Expr, same e f = true → e = f
  | constant _, f | var _, f | hardware _, f => by cases f <;> simp [same]
  | nary _ es, f => by
    cases f <;> simp only [same, Bool.and_eq_true, beq_iff_eq, Bool.false_eq_true,
      false_implies]
    rintro ⟨rfl, h⟩
    rw [eq_of_sameList es _ h]
  | tupleReduction _ _ es, f => by
    cases f <;> simp only [same, Bool.and_eq_true, beq_iff_eq, Bool.false_eq_true,
      false_implies]
    rintro ⟨⟨rfl, rfl⟩, h⟩
    rw [eq_of_sameList es _ h]
  | binary _ l r, f => by
    cases f <;> simp only [same, Bool.and_eq_true, beq_iff_eq, Bool.false_eq_true,
      false_implies]
    rintro ⟨⟨rfl, hl⟩, hr⟩
    rw [eq_of_same l _ hl, eq_of_same r _ hr]
  | linearSubscript l r, f => by
    cases f <;> simp only [same, Bool.and_eq_true, Bool.false_eq_true, false_implies]
    rintro ⟨hl, hr⟩
    rw [eq_of_same l _ hl, eq_of_same r _ hr]
  | not e, f => by
    cases f <;> simp only [same, Bool.false_eq_true, false_implies]
    intro h
    rw [eq_of_same e _ h]
  | lookup e _, f | cast _ e, f | view _ e, f => by
    cases f <;> simp only [same, Bool.and_eq_true, beq_iff_eq, Bool.false_eq_true,
      false_implies]
    rintro ⟨rfl, h⟩
    rw [eq_of_same e _ h]
  | reduction _ _ e, f => by
    cases f <;> simp only [same, Bool.and_eq_true, beq_iff_eq, Bool.false_eq_true,
      false_implies]
    rintro ⟨⟨rfl, rfl⟩, h⟩
    rw [eq_of_same e _ h]
  | ite c t e, f => by
    cases f <;> simp only [same, Bool.and_eq_true, Bool.false_eq_true, false_implies]
    rintro ⟨⟨hc, ht⟩, he⟩
    rw [eq_of_same c _ hc, eq_of_same t _ ht, eq_of_same e _ he]
  | subscript a is, f => by
    cases f <;> simp only [same, Bool.and_eq_true, Bool.false_eq_true, false_implies]
    rintro ⟨ha, hi⟩
    rw [eq_of_same a _ ha, eq_of_sameList is _ hi]
  | call _ es kws, f => by
    cases f <;> simp only [same, Bool.and_eq_true, beq_iff_eq, Bool.false_eq_true,
      false_implies]
    rintro ⟨⟨rfl, hes⟩, hkws⟩
    rw [eq_of_sameList es _ hes, eq_of_sameNamed kws _ hkws]

theorem eq_of_sameList : ∀ es fs : List Expr, sameList es fs = true → es = fs
  | [], fs => by cases fs <;> simp [sameList]
  | e :: es, fs => by
    cases fs <;> simp only [sameList, Bool.and_eq_true, Bool.false_eq_true, false_implies]
    rintro ⟨he, hes⟩
    rw [eq_of_same e _ he, eq_of_sameList es _ hes]

theorem eq_of_sameNamed : ∀ kws lws : List (String × Expr), sameNamed kws lws = true → kws = lws
  | [], lws => by cases lws <;> simp [sameNamed]
  | (_, e) :: kws, lws => by
    cases lws with
    | nil => simp [sameNamed]
    | cons lw lws =>
      obtain ⟨_, f⟩ := lw
      simp only [sameNamed, Bool.and_eq_true, beq_iff_eq]
      rintro ⟨⟨rfl, he⟩, h⟩
      rw [eq_of_same e f he, eq_of_sameNamed kws lws h]

end

theorem same_iff_eq {e f : Expr} : same e f = true ↔ e = f :=
  ⟨eq_of_same e f, fun h => h ▸ same_self e⟩

instance : DecidableEq Expr := fun _ _ => decidable_of_iff _ same_iff_eq

end Expr

end KernelTyping
