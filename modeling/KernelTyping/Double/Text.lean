import KernelTyping.Double.Shortest

/-!
# KernelTyping.Double.Text — how a double is written

Which digits are written is settled by `Dyadic.shortest`; `Layout` holds the decisions that are
left, and `Double.write` carries them out.
-/

namespace KernelTyping

/-- How digits are laid out.  A number `0.ddd * 10 ^ p` is written positionally, and then always
with a fraction, if `p` is in the given range; else it is `d.dde` with the exponent of the first
digit. -/
structure Layout where
  leastPoint : Int
  greatestPoint : Int
  nan : String
  infinity : String

namespace Layout

def zeros (n : Nat) : String := String.ofList (List.replicate n '0')

/-- Digits with the point after the first `point` of them, padded with zeros on either side. -/
def positional (digits : List Char) (point : Int) : String :=
  if point ≤ 0 then s!"0.{zeros (-point).toNat}{String.ofList digits}"
  else if digits.length ≤ point then
    s!"{String.ofList digits}{zeros (point.toNat - digits.length)}.0"
  else s!"{String.ofList (digits.take point.toNat)}.{String.ofList (digits.drop point.toNat)}"

/-- One digit before the point, and the point only if a digit follows. -/
def scientific (digits : List Char) (point : Int) : String :=
  let head := String.ofList (digits.take 1)
  let tail := String.ofList (digits.drop 1)
  if tail.isEmpty then s!"{head}e{point - 1}" else s!"{head}.{tail}e{point - 1}"

/-- The text of a finite magnitude. -/
def writeFinite (l : Layout) (m : Dyadic) : String :=
  if m.mantissa = 0 then "0.0"
  else
    let x := m.shortest
    let digits := Nat.toDigits 10 x.digits
    let point := digits.length + x.exponent
    if l.leastPoint ≤ point ∧ point ≤ l.greatestPoint then positional digits point
    else scientific digits point

/-- The text of a double; `plus` stands before one that is not negative.  A NaN has no sign. -/
def write (l : Layout) (plus : String) (x : Double) : String :=
  let sign := if x.isNegative then "-" else plus
  match x.magnitude with
  | .nan => l.nan
  | .infinite => sign ++ l.infinity
  | .finite m => sign ++ l.writeFinite m

end Layout

end KernelTyping
