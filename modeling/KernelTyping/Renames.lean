import KernelTyping.Expr.Traversal

/-!
# KernelTyping.Renames — which specialization each call resolved to

Renames map call nodes to names of entries of the table of callables.  A call that is recorded
again takes the later name.  The size of a call is kept beside it: calls of different sizes are told
apart without looking into them.
-/

namespace KernelTyping

/-- A call, its size, and the name of its specialization. -/
structure Rename where
  call : Expr
  size : Nat
  name : String
  deriving DecidableEq

/-- The entry is that of a call, given with its size. -/
def Rename.isFor (r : Rename) (call : Expr) (size : Nat) : Bool := r.size = size && r.call = call

/-- Calls with the names of their specializations, each call once. -/
structure Renames where
  entries : List Rename
  deriving DecidableEq

namespace Renames

def empty : Renames := ⟨[]⟩

def isEmpty (r : Renames) : Bool := r.entries.isEmpty

/-- The name recorded for a call. -/
def get? (r : Renames) (call : Expr) : Option String :=
  let size := call.size
  (r.entries.find? (·.isFor call size)).map (·.name)

def contains (r : Renames) (call : Expr) : Bool := (r.get? call).isSome

/-- The renames with a name recorded for a call. -/
def insert (r : Renames) (call : Expr) (name : String) : Renames :=
  let size := call.size
  if r.entries.any (·.isFor call size) then
    ⟨r.entries.map fun e => if e.isFor call size then { e with name } else e⟩
  else ⟨r.entries ++ [⟨call, size, name⟩]⟩

/-- The renames with later ones recorded over them. -/
def merge (r later : Renames) : Renames :=
  later.entries.foldl (fun r e => r.insert e.call e.name) r

def ofList (entries : List (Expr × String)) : Renames :=
  entries.foldl (fun r (call, name) => r.insert call name) empty

end Renames

end KernelTyping
