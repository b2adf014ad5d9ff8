import Mathlib
import KernelTyping.Proofs.Outcome
import KernelTyping.Proofs.Table.Growth

/-!
# KernelTyping.Proofs.Table.Naming — the names of stored callables

`StoreRequest` is one call that stores a callable, and `storeAll` makes such calls one after the
other.  Each of them is `StoredOnce`: an equal callable is found, or the callable is added under the
least candidate that is free.

* `storeAll_names`: the names of a run stand for exactly the callables that they were returned for,
  so that two of them are equal if and only if the callables are.
-/

namespace KernelTyping

namespace Table

variable {t u v : Table} {base name : String} {c : Callable}

/-! ### The least free candidate -/

/-- The name is the first of the candidates that the table does not have. -/
def LeastFree (t : Table) (base name : String) : Prop :=
  ∃ i, name = candidate base i ∧ t.contains name = false ∧
    ∀ j < i, t.contains (candidate base j) = true

theorem leastFree_freshName (t : Table) (base : String) : t.LeastFree base (t.freshName base) := by
  obtain ⟨i, hi⟩ : ∃ i, ((List.range (t.size + 1)).find? fun i =>
      !t.contains (candidate base i)) = some i := by
    obtain ⟨i, hi, hfree⟩ := t.exists_candidate_free base
    rw [← Option.isSome_iff_exists, List.find?_isSome]
    exact ⟨i, hi, by rw [hfree]; rfl⟩
  have hname : t.freshName base = candidate base i := by rw [freshName, hi, Option.getD_some]
  obtain ⟨-, -, hleast⟩ := List.find?_range_eq_some.1 hi
  refine ⟨i, hname, t.not_contains_freshName base, fun j hj => ?_⟩
  simpa using hleast j hj

theorem size_addFresh (t : Table) (base : String) (c : Callable) :
    (t.addFresh base c).size = t.size + 1 := by
  have hfresh : t.freshName base ∉ t.entries := by
    rw [← Std.ExtTreeMap.contains_iff_mem, Bool.not_eq_true]
    exact t.not_contains_freshName base
  simp [size, addFresh, Std.ExtTreeMap.size_insert, hfresh]

/-! ### One call -/

/-- The callable is stored once: the table `u` finds it under `name` and has nothing else new. -/
structure StoredOnce (t : Table) (base : String) (c : Callable) (u : Table) (name : String) :
    Prop where
  bound : u.get? name = some c
  kept {other : String} {d : Callable} : t.get? other = some d → u.get? other = some d
  present : (∃ other, t.get? other = some c) → u = t
  absent : (¬∃ other, t.get? other = some c) → u.size = t.size + 1 ∧ t.LeastFree base name ∧
    ∀ other, u.get? other = if name = other then some c else t.get? other

theorem storedOnce_of_store (h : t.store base c = .ok (u, name)) : t.StoredOnce base c u name := by
  have hgrows : t.Grows u := .of_store h
  have hbound : u.get? name = some c := (nameOf?_spec (Grows.nameOf?_of_store h (.refl u))).1
  obtain ⟨-, ⟨hfound, rfl⟩ | ⟨hnone, rfl, rfl⟩⟩ := store_eq_ok.1 h
  · refine ⟨hbound, hgrows.get?, fun _ => rfl, fun habsent => ?_⟩
    exact absurd ⟨name, (nameOf?_spec hfound).1⟩ habsent
  · refine ⟨hbound, hgrows.get?, fun ⟨other, hother⟩ => ?_, fun _ => ?_⟩
    · exact absurd hother (nameOf?_eq_none.1 hnone other)
    · exact ⟨t.size_addFresh base c, t.leastFree_freshName base, t.get?_addFresh base c⟩

end Table

/-- A call that stores a callable. -/
inductive StoreRequest where
  /-- The callable is a specialization of the entry `function`. -/
  | specialization (function : String) (callable : Callable)
  /-- There is no entry `function` yet. -/
  | added (function : String) (callable : Callable)
  deriving DecidableEq

namespace StoreRequest

variable {t u v : Table} {r : StoreRequest} {name : String}

def callable : StoreRequest → Callable
  | specialization _ c | added _ c => c

/-- What the name of the callable starts with if it is new. -/
def base : StoreRequest → String
  | specialization _ c => c.name
  | added function _ => function

def run (t : Table) : StoreRequest → Except Fault (Table × String)
  | specialization function c => t.storeSpecialization function c
  | added function c => t.store function c

theorem store_of_run (h : r.run t = .ok (u, name)) : t.store r.base r.callable = .ok (u, name) := by
  cases r with
  | specialization function c => exact Table.store_of_storeSpecialization h
  | added function c => exact h

/-! ### One call after the other -/

/-- The calls in order, with the names that they return. -/
def runAll (t : Table) : List StoreRequest → Except Fault (Table × List String)
  | [] => .ok (t, [])
  | r :: rs => do
    let (u, name) ← r.run t
    let (v, names) ← runAll u rs
    return (v, name :: names)

variable {rs before after : List StoreRequest} {names : List String}

theorem runAll_cons_eq_ok : runAll t (r :: rs) = .ok (v, names) ↔
    ∃ u name rest, r.run t = .ok (u, name) ∧ runAll u rs = .ok (v, rest) ∧ names = name :: rest := by
  constructor
  · intro h
    obtain ⟨⟨u, name⟩, hrun, h⟩ := bind_eq_ok.1 h
    obtain ⟨⟨w, rest⟩, hrest, h⟩ := bind_eq_ok.1 h
    cases h
    exact ⟨u, name, rest, hrun, hrest, rfl⟩
  · rintro ⟨u, name, rest, hrun, hrest, rfl⟩
    exact bind_eq_ok.2 ⟨_, hrun, bind_eq_ok.2 ⟨_, hrest, rfl⟩⟩

theorem grows_of_runAll (h : runAll t rs = .ok (v, names)) : t.Grows v := by
  induction rs generalizing t names with
  | nil =>
    cases h
    exact .refl v
  | cons r rs ih =>
    obtain ⟨u, name, rest, hrun, hrest, -⟩ := runAll_cons_eq_ok.1 h
    exact (Table.Grows.of_store (store_of_run hrun)).trans (ih hrest)

/-- In the end each callable is found under the name that was returned for it. -/
theorem nameOf?_of_runAll (h : runAll t rs = .ok (v, names)) :
    List.Forall₂ (fun r name => v.nameOf? r.callable = some name) rs names := by
  induction rs generalizing t names with
  | nil =>
    cases h
    exact .nil
  | cons r rs ih =>
    obtain ⟨u, name, rest, hrun, hrest, rfl⟩ := runAll_cons_eq_ok.1 h
    have hfound := Table.Grows.nameOf?_of_store (store_of_run hrun) (grows_of_runAll hrest)
    exact .cons hfound (ih hrest)

/-- A run seen at one of its calls. -/
theorem exists_run_of_runAll (h : runAll t (before ++ r :: after) = .ok (v, names)) :
    ∃ u w name, runAll t before = .ok (u, names.take before.length) ∧ r.run u = .ok (w, name) ∧
      names[before.length]? = some name := by
  induction before generalizing t names with
  | nil =>
    obtain ⟨w, name, rest, hrun, -, rfl⟩ := runAll_cons_eq_ok.1 h
    exact ⟨t, w, name, rfl, hrun, rfl⟩
  | cons first before ih =>
    obtain ⟨u, name, rest, hfirst, hrest, rfl⟩ := runAll_cons_eq_ok.1 h
    obtain ⟨w, x, found, hbefore, hrun, hname⟩ := ih hrest
    exact ⟨w, x, found, runAll_cons_eq_ok.2 ⟨u, name, _, hfirst, hbefore, rfl⟩, hrun, hname⟩

/-- **The names of stored callables.**  Where a run of calls succeeds, entries stay, each call stores
its callable once, the names that are returned stand for the callables in the end, and they tell
them apart. -/
theorem runAll_names (h : runAll t rs = .ok (v, names)) :
    names.length = rs.length ∧
    (∀ name c, t.get? name = some c → v.get? name = some c) ∧
    (∀ before r after, rs = before ++ r :: after → ∃ u w name,
      runAll t before = .ok (u, names.take before.length) ∧ r.run u = .ok (w, name) ∧
        names[before.length]? = some name ∧ u.StoredOnce r.base r.callable w name) ∧
    (∀ r name, (r, name) ∈ rs.zip names → v.get? name = some r.callable) ∧
    ∀ r name r' name', (r, name) ∈ rs.zip names → (r', name') ∈ rs.zip names →
      (name = name' ↔ r.callable = r'.callable) := by
  have hnames := nameOf?_of_runAll h
  have hfound : ∀ r name, (r, name) ∈ rs.zip names → v.nameOf? r.callable = some name :=
    fun r name hmem => (List.forall₂_iff_zip.1 hnames).2 hmem
  have hbound : ∀ r name, (r, name) ∈ rs.zip names → v.get? name = some r.callable :=
    fun r name hmem => (Table.nameOf?_spec (hfound r name hmem)).1
  refine ⟨hnames.length_eq.symm, fun name c => (grows_of_runAll h).get?, ?_, hbound, ?_⟩
  · rintro before r after rfl
    obtain ⟨u, w, name, hbefore, hrun, hname⟩ := exists_run_of_runAll h
    exact ⟨u, w, name, hbefore, hrun, hname, Table.storedOnce_of_store (store_of_run hrun)⟩
  · intro r name r' name' hmem hmem'
    constructor
    · rintro rfl
      have hboth := (hbound r name hmem).symm.trans (hbound r' name hmem')
      exact Option.some.inj hboth
    · intro hcallable
      have hfound' := hfound r' name' hmem'
      rw [← hcallable, hfound r name hmem] at hfound'
      exact Option.some.inj hfound'

/-- The function `abs` at that type. -/
def absAt (type : ElementType) : Callable :=
  ⟨"abs", some (.ofLists [type] [type]), .builtin .abs⟩

/-- A table where a name that could be generated is taken. -/
def takenTable : Table :=
  ((Table.empty.insert "abs" (.ofBuiltin .abs)).insert "abs_0" (.ofBuiltin .sqrt)).beginEdit.1

/-- Two specializations, the second of them once more for a name without an entry. -/
def absRequests : List StoreRequest :=
  [.specialization "abs" (absAt .int32), .specialization "abs" (absAt .float32),
    .added "cabs" (absAt .float32), .added "cabs" (absAt .float64)]

theorem runAll_absRequests :
    (runAll takenTable absRequests).map (·.2) = .ok ["abs_1", "abs_2", "abs_2", "cabs_0"] := by
  cbv

theorem runAll_names_absRequests :
    ∃ v, runAll takenTable absRequests = .ok (v, ["abs_1", "abs_2", "abs_2", "cabs_0"]) ∧
      v.get? "abs_0" = some (.ofBuiltin .sqrt) ∧ v.get? "abs_2" = some (absAt .float32) ∧
      ("abs_1" = "cabs_0" ↔ absAt .int32 = absAt .float64) := by
  obtain ⟨⟨v, names⟩, hrun, hnames⟩ := map_eq_ok.1 runAll_absRequests
  obtain rfl : names = ["abs_1", "abs_2", "abs_2", "cabs_0"] := hnames
  obtain ⟨-, hkept, -, hbound, hinjective⟩ := runAll_names hrun
  have htaken : takenTable.get? "abs_0" = some (.ofBuiltin .sqrt) := by cbv
  exact ⟨v, hrun, hkept _ _ htaken, hbound (.added "cabs" (absAt .float32)) _ (by decide),
    hinjective (.specialization "abs" (absAt .int32)) _ (.added "cabs" (absAt .float64)) _
      (by decide) (by decide)⟩

end StoreRequest

end KernelTyping
