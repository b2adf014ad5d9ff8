import KernelTyping.ElementType.Basic
import KernelTyping.Expr.Text
import KernelTyping.Text.Quoted
import Std.Data.ExtTreeMap

/-!
# KernelTyping.Signature — argument slots and the types recorded for them

A slot of a call is a position or a keyword.  Positions from zero up are inputs; the results of a
call occupy the positions -1, -2, and so on.  Slots are ordered: positions first, by number, then
keywords by name.  A `Signature` records a type per slot; `Incoming` is what a call site knows.
-/

namespace KernelTyping

/-- A slot of a call. -/
inductive Slot where
  | position (index : Int)
  | keyword (name : String)
  deriving DecidableEq

namespace Slot

/-- The slot of the `i`-th input. -/
def input (i : Nat) : Slot := position i

/-- The slot of the `i`-th result. -/
def result (i : Nat) : Slot := position (-(i : Int) - 1)

def isResult : Slot → Bool
  | position index => index < 0
  | keyword _ => false

/-! ### Order -/

/-- Positions first, by number, then keywords by name. -/
def order : Slot → Slot → Ordering
  | position i, position j => compare i j
  | position _, keyword _ => .lt
  | keyword _, position _ => .gt
  | keyword m, keyword n => compare m n

instance : Ord Slot := ⟨order⟩

theorem order_swap (a b : Slot) : order a b = (order b a).swap := by
  cases a <;> cases b
  · exact Std.OrientedOrd.eq_swap
  · rfl
  · rfl
  · exact Std.OrientedOrd.eq_swap

theorem order_isLE_trans {a b c : Slot} (hab : (order a b).isLE) (hbc : (order b c).isLE) :
    (order a c).isLE := by
  match a, b, c, hab, hbc with
  | position _, position _, position _, hab, hbc =>
    exact Std.TransOrd.isLE_trans hab hbc
  | keyword _, keyword _, keyword _, hab, hbc =>
    exact Std.TransOrd.isLE_trans hab hbc
  | position _, _, keyword _, _, _ => rfl
  | keyword _, position _, _, hab, _ => exact nomatch hab
  | _, keyword _, position _, _, hbc => exact nomatch hbc

theorem eq_of_order_eq {a b : Slot} (h : order a b = .eq) : a = b := by
  match a, b, h with
  | position _, position _, h =>
    exact congrArg position (Std.LawfulEqOrd.eq_of_compare h)
  | keyword _, keyword _, h =>
    exact congrArg keyword (Std.LawfulEqOrd.eq_of_compare h)

instance : Std.TransOrd Slot where
  eq_swap := order_swap _ _
  isLE_trans := order_isLE_trans

instance : Std.LawfulEqOrd Slot where
  compare_self {a} := by
    cases a
    · exact Std.ReflOrd.compare_self
    · exact Std.ReflOrd.compare_self
  eq_of_compare := eq_of_order_eq

/-! ### Text -/

def text : Slot → String
  | position index => toString index
  | keyword name => name

/-- The slot with its kind, and a keyword in quotes. -/
def quoted : Slot → String
  | position index => s!"Pos({index})"
  | keyword name => s!"Kw({Text.quote name})"

end Slot

/-- The types recorded for the slots of a callable. -/
abbrev Signature := Std.ExtTreeMap Slot ElementType

/-- What a call site knows about its arguments. -/
abbrev Incoming := Std.ExtTreeMap Slot (Option ElementType)

namespace Signature

/-- The signature with the given inputs and results, in order. -/
def ofLists (inputs results : List ElementType) : Signature :=
  let withInputs := inputs.zipIdx.foldl (fun (s : Signature) (t, i) => s.insert (.input i) t) ∅
  results.zipIdx.foldl (fun s (t, i) => s.insert (.result i) t) withInputs

/-- The types of the result slots, in order, up to the first gap. -/
def results (s : Signature) : List ElementType :=
  ((List.range s.size).map fun i => s[Slot.result i]?).takeWhile (·.isSome) |>.filterMap id

/-- The signature as inputs, with the keywords named, and results. -/
def text (s : Signature) : String :=
  let inputs := s.toList.filter (!·.1.isResult)
  let results := s.toList.filter (·.1.isResult)
  let input : Slot × ElementType → String
    | (.keyword name, type) => s!"{name}={type}"
    | (.position _, type) => type.text
  tupled (inputs.map input) ++ " -> " ++ tupled (results.reverse.map (·.2.text))

end Signature

/-- The types of positional arguments, each of which may be unknown, and of keyword arguments.  Of
a repeated keyword the last one counts. -/
def Incoming.ofArguments (args : List (Option ElementType))
    (keywords : List (String × Option ElementType)) : Incoming :=
  let positional := args.zipIdx.foldl (fun (m : Incoming) (t, i) => m.insert (.input i) t) ∅
  keywords.foldl (fun m (k, t) => m.insert (.keyword k) t) positional

end KernelTyping
