import KernelTyping.Callable.Basic
import KernelTyping.WorkList

/-!
# KernelTyping.Table.Basic — the table of callables and its edit transactions

The table maps names to callables.  Specializations are added only inside an edit transaction;
transactions nest, and only the outermost commit makes the pending entries count as committed.
Every operation returns a new table.

* `insert` registers a callable under a given name; `store` reuses an equal callable or takes a
  fresh name.
* `beginEdit`, `commitEdit` and `discardEdit` bracket a transaction by a `Checkpoint`.
* `retainReachable` drops the pending entries that nothing refers to.
-/

namespace KernelTyping

/-- The table of callables. -/
structure Table where
  entries : Std.ExtTreeMap String Callable
  /-- Names added in the outermost open transaction, in order. -/
  pending : List String
  /-- The number of entries when no transaction was open last. -/
  committed : Nat
  /-- The number of open transactions. -/
  depth : Nat
  deriving DecidableEq

/-- Where a transaction was opened. -/
structure Checkpoint where
  entries : Std.ExtTreeMap String Callable
  pendingLength : Nat
  committed : Nat
  depth : Nat

/-- No transaction was open when this one was. -/
def Checkpoint.isOutermost (c : Checkpoint) : Bool := c.depth = 0

namespace Table

def empty : Table := ⟨∅, [], 0, 0⟩

def size (t : Table) : Nat := t.entries.size

def isEmpty (t : Table) : Bool := t.entries.isEmpty

def contains (t : Table) (name : String) : Bool := t.entries.contains name

def get? (t : Table) (name : String) : Option Callable := t.entries[name]?

/-- Some transaction is open. -/
def isEditing (t : Table) : Bool := 0 < t.depth

/-! ### Adding entries -/

/-- The table with `callable` registered, or replaced, under exactly this name. -/
def insert (t : Table) (name : String) (callable : Callable) : Table :=
  let entries := t.entries.insert name callable
  if t.isEditing then
    if t.contains name then { t with entries } else { t with entries, pending := t.pending ++ [name] }
  else { t with entries, committed := entries.size }

/-- The table with every builtin under its own name. -/
def withBuiltins : Table :=
  Builtin.all.foldl (fun t f => t.insert f.name (.ofBuiltin f)) empty

/-- The names that a specialization can get. -/
def candidate (base : String) (i : Nat) : String := s!"{base}_{i}"

/-- The first candidate that is not taken.  A table with `n` entries cannot take all of the first
`n + 1`. -/
def freshName (t : Table) (base : String) : String :=
  candidate base <|
    ((List.range (t.size + 1)).find? fun i => !t.contains (candidate base i)).getD t.size

/-- The first name, in order, under which an equal callable is registered. -/
def nameOf? (t : Table) (callable : Callable) : Option String :=
  (t.entries.toList.find? (·.2 = callable)).map (·.1)

/-- The table with `callable` in it, and the name it is found under: that of an equal callable that
is already there, or a fresh one that starts with `base`. -/
def store (t : Table) (base : String) (callable : Callable) : Except Fault (Table × String) :=
  if t.isEditing then
    match t.nameOf? callable with
    | some name => .ok (t, name)
    | none =>
      let name := t.freshName base
      .ok ({ t with
        entries := t.entries.insert name callable
        pending := t.pending ++ [name] }, name)
  else .error (.notEditing base)

/-- The same for a specialization of the entry `function`, which must exist. -/
def storeSpecialization (t : Table) (function : String) (callable : Callable) :
    Except Fault (Table × String) :=
  if t.contains function then t.store callable.name callable
  else .error (.unknownFunction function)

/-! ### Transactions -/

/-- Opens a transaction. -/
def beginEdit (t : Table) : Table × Checkpoint :=
  ({ t with depth := t.depth + 1 }, ⟨t.entries, t.pending.length, t.committed, t.depth⟩)

/-- The checkpoint is that of the innermost open transaction. -/
def closes (t : Table) (c : Checkpoint) : Bool := t.depth = c.depth + 1

/-- Closes a transaction.  With the outermost one, everything pending is committed. -/
def commitEdit (t : Table) (c : Checkpoint) : Except Fault Table :=
  if t.closes c then
    if c.isOutermost then
      .ok { t with pending := [], committed := t.size, depth := c.depth }
    else .ok { t with depth := c.depth }
  else .error (.unbalancedEdit c.depth t.depth)

/-- Closes a transaction and drops everything it added or replaced. -/
def discardEdit (t : Table) (c : Checkpoint) : Except Fault Table :=
  if t.closes c then
    .ok ⟨c.entries, t.pending.take c.pendingLength, c.committed, c.depth⟩
  else .error (.unbalancedEdit c.depth t.depth)

/-! ### Pruning -/

/-- The entries that an entry refers to. -/
def callees (t : Table) (name : String) : List String :=
  match t.get? name with
  | some c => c.callees
  | none => []

/-- How many names the entries that have not been reached can still add to those that wait. -/
def unreachedCallees (t : Table) (reached : NameSet) : Nat :=
  ((t.entries.keys.filter (· ∉ reached)).flatMap t.callees).length

theorem callees_of_not_mem {t : Table} {name : String} (h : name ∉ t.entries.keys) :
    t.callees name = [] := by
  have hnone : t.get? name = none := by
    rw [Std.ExtTreeMap.mem_keys] at h
    exact Std.ExtTreeMap.getElem?_eq_none h
  rw [callees, hnone]

/-- A name that is reached for the first time adds what it refers to once and for all. -/
theorem unreachedCallees_insert (t : Table) {reached : NameSet} {name : String}
    (h : name ∉ reached) :
    t.unreachedCallees (reached.insert name) + (t.callees name).length ≤
      t.unreachedCallees reached := by
  have hfilter (keys : List String) :
      ((keys.filter (· ∉ reached.insert name)).flatMap t.callees).length +
          (if name ∈ keys then (t.callees name).length else 0) ≤
        ((keys.filter (· ∉ reached)).flatMap t.callees).length := by
    induction keys with
    | nil => simp
    | cons key keys ih =>
      simp only [Std.ExtTreeSet.mem_insert, Std.LawfulEqOrd.compare_eq_iff_eq] at ih ⊢
      by_cases hkey : name = key
      · subst hkey
        simp only [true_or, not_true_eq_false, decide_false, Bool.false_eq_true, not_false_eq_true,
          List.filter_cons_of_neg, List.mem_cons, if_true, h, decide_true, List.filter_cons_of_pos,
          List.flatMap_cons, List.length_append]
        omega
      · by_cases hreached : key ∈ reached
        · simpa [hkey, hreached] using ih
        · simp only [hkey, hreached, List.mem_cons, false_or, or_self, not_false_eq_true,
            decide_true, List.filter_cons_of_pos, List.flatMap_cons, List.length_append]
          omega
  have hkeys := hfilter t.entries.keys
  by_cases hname : name ∈ t.entries.keys
  · simpa [unreachedCallees, hname] using hkeys
  · simpa [unreachedCallees, hname, callees_of_not_mem hname] using hkeys

/-- What is reached when the names that wait, and what the entries among them refer to, are looked
at one after the other.  Names that have been reached are passed over. -/
def follow (t : Table) (reached : NameSet) (waiting : WorkList) : NameSet :=
  match _h : waiting.pop? with
  | none => reached
  | some (name, rest) =>
    if _hname : name ∈ reached then t.follow reached rest
    else
      t.follow (reached.insert name)
        (rest.extend ((t.callees name).filter (· ∉ reached.insert name)))
termination_by t.unreachedCallees reached + waiting.names.length
decreasing_by
  · rw [WorkList.pop?_eq_some _h, List.length_cons]
    omega
  · have hextend := rest.length_extend_le ((t.callees name).filter (· ∉ reached.insert name))
    have hfilter := List.length_filter_le (· ∉ reached.insert name) (t.callees name)
    have hunreached := t.unreachedCallees_insert _hname
    rw [WorkList.pop?_eq_some _h, List.length_cons]
    omega

/-- The names that can be reached from the roots or from an entry that is not pending. -/
def reachable (t : Table) (roots : List String) : NameSet :=
  t.follow ∅ ((WorkList.empty.extend roots).extend (t.entries.keys.filter (· ∉ t.pending)))

/-- The table without the pending entries that cannot be reached. -/
def retainReachable (t : Table) (roots : List String) : Table :=
  let reached := t.reachable roots
  { t with
    entries := t.entries.filter fun name _ => name ∉ t.pending || reached.contains name
    pending := t.pending.filter reached.contains }

end Table

end KernelTyping
