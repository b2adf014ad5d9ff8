import KernelTyping.NameSet

/-!
# KernelTyping.DepthFirst — depth-first search between names

A graph is given by the successors of each name.  A search enters a name, then what it leads to, and
then leaves it; a name that has been entered before is passed over.

* `DepthFirst.postorder`: the names in the order in which the search leaves them.
* `DepthFirst.reachable`: the names that can be reached.

Each name on the way to the one being visited is entered but not yet left, and they all differ, so
that a bound on the number of names with successors bounds the depth of the search.
-/

namespace KernelTyping.DepthFirst

/-- How far a search has come. -/
structure Search where
  entered : NameSet
  /-- What has been left, the last one first. -/
  left : List String

/-- Nothing has been visited. -/
def Search.start : Search := ⟨∅, []⟩

variable (next : String → List String)

/-- Visits a name and what it leads to, in order.  `depth` bounds the length of a path. -/
def visit : (depth : Nat) → Search → String → Search
  | 0, s, _ => s
  | depth + 1, s, name =>
    if s.entered.contains name then s
    else
      let inside := (next name).foldl (visit depth) { s with entered := s.entered.insert name }
      { inside with left := name :: inside.left }

/-- Visits the starts, in order. -/
def search (depth : Nat) (starts : List String) : Search :=
  starts.foldl (visit next depth) .start

/-- What can be reached from the starts, in the order in which it is left. -/
def postorder (depth : Nat) (starts : List String) : List String :=
  (search next depth starts).left.reverse

/-- What can be reached from the starts. -/
def reachable (depth : Nat) (starts : List String) : NameSet :=
  (search next depth starts).entered

end KernelTyping.DepthFirst
