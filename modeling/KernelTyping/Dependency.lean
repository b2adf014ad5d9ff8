import KernelTyping.DepthFirst
import KernelTyping.Kernel

/-!
# KernelTyping.Dependency — in which order variables are typed

A variable depends on another if an instruction that writes the one reads the other.  Variables that
depend on each other form a component; `Dependencies.components` lists the components so that each
comes after those it depends on.  Only the variables to be inferred are tracked: the types of all
others are fixed.
-/

namespace KernelTyping

/-- For each variable to be inferred, those it depends on. -/
structure Dependencies where
  edges : Std.ExtTreeMap String (List String)

namespace Dependencies

/-- What a variable depends on, in the order of its writers and then by name. -/
def reads (k : Kernel) (names : NameSet) (name : String) : List String :=
  (((k.writers name).flatMap (·.readNames.toList)).filter names.contains).eraseDups

/-- The dependencies among `names` in a kernel. -/
def ofKernel (k : Kernel) (names : List String) : Dependencies :=
  ⟨.ofList (names.map fun name => (name, reads k (.ofList names) name))⟩

variable (d : Dependencies)

/-- What a variable depends on. -/
def on (name : String) : List String := d.edges.getD name []

/-- The variable depends on itself. -/
def onItself (name : String) : Bool := name ∈ d.on name

/-- No path visits more variables than there are. -/
def depth : Nat := d.edges.size + 1

/-- The order in which a depth-first search, which follows what was found last first, leaves the
variables. -/
def order (names : List String) : List String :=
  DepthFirst.postorder (fun name => (d.on name).reverse) d.depth names

/-- What a variable depends on, directly or not, and itself. -/
def closure (name : String) : NameSet := DepthFirst.reachable d.on d.depth [name]

/-- The closures of several variables. -/
def closures (names : List String) : Std.ExtTreeMap String NameSet :=
  .ofList (names.map fun name => (name, d.closure name))

/-- The component of a variable: those of `names` that depend on it, directly or not, and on which
it depends. -/
def component (closures : Std.ExtTreeMap String NameSet) (names : List String) (name : String) :
    List String :=
  let closure := closures.getD name ∅
  names.filter fun other => closure.contains other && (closures.getD other ∅).contains name

/-- Puts the component of a variable in front of those that were found, unless it is one of them. -/
def addComponent (closures : Std.ExtTreeMap String NameSet) (names : List String) (name : String)
    (found : List (List String)) : List (List String) :=
  if found.any (name ∈ ·) then found else component closures names name :: found

/-- The components of `names`, each after those it depends on.  Members keep the order of `names`; a
repeated name stands where it is repeated last. -/
def components (names : List String) : List (List String) :=
  let members := names.reverse.eraseDups.reverse
  let closures := d.closures members
  (d.order names).foldr (addComponent closures members) []

end Dependencies

end KernelTyping
